/-
Xv6Sharing.Fs.SlotTheorems — the slots of inodes, and who owns a block.

`mkfs` and the kernel fill slots in the same way and keep different accounts of
the blocks in use, so the facts here take the account as any predicate `marked`.
`Filled` says that some slots of one inode have been filled: what was in slots
stays there, and of the blocks that have an owner only the indirect block of the
inode has changed.

A file without holes has a slot filled exactly when the slot's first byte lies
before the end of the file. `Covered` says that with any end `e` in the place of
the size, since blocks are allocated before the new size is stored.
-/
import Xv6Sharing.Fs.LayoutTheorems

namespace Xv6Sharing.Fs

open Lib

variable {n i : Nat} {disk disk' disk'' : Disk} {ino : Nat → Dinode} {ip ip' : Dinode}
  {marked marked' Data : Nat → Prop}

/-! ## Owners -/

theorem ownerAddr_self (hi : i < n) (htype : ip.type ≠ 0) (t : Slot) :
    ownerAddr n disk (Function.update ino i ip) (i, t) = slotAddr disk ip t := by
  rw [ownerAddr, Function.update_self, if_pos ⟨hi, htype⟩]

theorem ownerAddr_of_ne {o : Nat × Slot} (h : o.1 ≠ i) :
    ownerAddr n disk (Function.update ino i ip) o = ownerAddr n disk ino o := by
  rw [ownerAddr, ownerAddr, Function.update_of_ne h]

theorem slotAddr_eq_owner {j : Nat} (hj : j < n) (htype : (ino j).type ≠ 0) (t : Slot) :
    slotAddr disk (ino j) t = ownerAddr n disk ino (j, t) := by
  rw [ownerAddr, if_pos ⟨hj, htype⟩]

/-- Owners depend on the disk through the indirect blocks only. -/
theorem ownerAddr_congr {o : Nat × Slot} (h : ownerAddr n disk ino (o.1, .addr 12) ≠ 0 →
      disk' (ownerAddr n disk ino (o.1, .addr 12)) = disk (ownerAddr n disk ino (o.1, .addr 12))) :
    ownerAddr n disk' ino o = ownerAddr n disk ino o := by
  unfold ownerAddr at h ⊢
  by_cases hal : o.1 < n ∧ (ino o.1).type ≠ 0
  · rw [if_pos hal, if_pos hal]
    rw [if_pos hal] at h
    exact slotAddr_congr o.2 h
  · rw [if_neg hal, if_neg hal]

/-- Blocks that nobody owns may change. -/
theorem ownerAddr_congr_of_owned (h : Owned (ownerAddr n disk ino) marked Data)
    (hdisk : ∀ c, Data c → marked c → disk' c = disk c) (o : Nat × Slot) :
    ownerAddr n disk' ino o = ownerAddr n disk ino o := by
  refine ownerAddr_congr fun hj => ?_
  have hdata := h.data _ hj
  exact hdisk _ hdata ((h.marked_iff _ hdata).mpr ⟨_, rfl⟩)

/-- A block that a slot of the inode holds is marked. -/
theorem owned_slot (h : Owned (ownerAddr n disk (Function.update ino i ip)) marked Data) (hi : i < n)
    (htype : ip.type ≠ 0) {t : Slot} (ht : slotAddr disk ip t ≠ 0) :
    Data (slotAddr disk ip t) ∧ marked (slotAddr disk ip t) := by
  have hself : ownerAddr n disk (Function.update ino i ip) (i, t) = slotAddr disk ip t :=
    ownerAddr_self hi htype t
  have hdata := h.data (i, t) (by rwa [hself])
  rw [hself] at hdata
  exact ⟨hdata, (h.marked_iff _ hdata).mpr ⟨(i, t), hself⟩⟩

theorem slotAddr_eq_zero (h : ∀ k, ip.addrs k = 0) (t : Slot) : slotAddr disk ip t = 0 := by
  cases t with
  | addr k => exact h k
  | entry j => exact if_pos (h 12)

theorem slotAddr_entry (hind : ip.addrs 12 ≠ 0) (j : Fin 128) :
    slotAddr disk ip (.entry j) = read32 (disk (ip.addrs 12)) (4 * j) := if_neg hind

/-! ## Filling slots -/

/-- The slots `T` of inode `i` have been filled where they were empty. -/
structure Filled (n : Nat) (ino : Nat → Dinode) (i : Nat) (ip : Dinode) (disk : Disk)
    (T : Slot → Prop) (ip' : Dinode) (disk' : Disk) : Prop where
  fields : ip' = { ip with addrs := ip'.addrs }
  fits : ip'.Fits
  kept : ∀ o, o ≠ (i, .addr 12) → ownerAddr n disk (Function.update ino i ip) o ≠ 0 →
    disk' (ownerAddr n disk (Function.update ino i ip) o)
      = disk (ownerAddr n disk (Function.update ino i ip) o)
  slots : ∀ t, slotAddr disk ip t ≠ 0 → slotAddr disk' ip' t = slotAddr disk ip t
  filled : ∀ t, slotAddr disk' ip' t ≠ 0 ↔ slotAddr disk ip t ≠ 0 ∨ T t
  unchanged : (∀ t, T t → slotAddr disk ip t ≠ 0) → ip' = ip ∧ disk' = disk

namespace Filled

variable {T U : Slot → Prop}

theorem type_eq (h : Filled n ino i ip disk T ip' disk') : ip'.type = ip.type := by
  rw [h.fields]

theorem others (h : Filled n ino i ip disk T ip' disk') {o : Nat × Slot} (ho : o.1 ≠ i) :
    ownerAddr n disk' ino o = ownerAddr n disk ino o := by
  have hkept := h.kept (o.1, .addr 12) (fun heq => ho (congrArg Prod.fst heq))
  rw [ownerAddr_of_ne (o := (o.1, .addr 12)) ho] at hkept
  exact ownerAddr_congr hkept

theorem refl (hfits : ip.Fits) (hT : ∀ t, T t → slotAddr disk ip t ≠ 0) :
    Filled n ino i ip disk T ip disk :=
  ⟨rfl, hfits, fun _ _ _ => rfl, fun _ _ => rfl, fun t => ⟨.inl, fun ht => ht.elim id (hT t)⟩,
    fun _ => ⟨rfl, rfl⟩⟩

theorem trans {ip'' : Dinode} (hi : i < n) (htype : ip.type ≠ 0)
    (h : Filled n ino i ip disk T ip' disk') (h' : Filled n ino i ip' disk' U ip'' disk'') :
    Filled n ino i ip disk (fun t => T t ∨ U t) ip'' disk'' := by
  have htype' : ip'.type ≠ 0 := h.type_eq ▸ htype
  have hsame : ∀ o, ownerAddr n disk (Function.update ino i ip) o ≠ 0 →
      ownerAddr n disk' (Function.update ino i ip') o
        = ownerAddr n disk (Function.update ino i ip) o := by
    rintro ⟨j, t⟩ ho
    by_cases hj : j = i
    · subst hj
      rw [ownerAddr_self hi htype] at ho ⊢
      rw [ownerAddr_self hi htype', h.slots t ho]
    · rw [ownerAddr_of_ne hj, ownerAddr_of_ne hj, h.others hj]
  refine ⟨?_, h'.fits, fun o ho hne => ?_, fun t ht => ?_, fun t => ?_, fun hTU => ?_⟩
  · rw [h'.fields, h.fields]
  · have hlast := h'.kept o ho
    rw [hsame o hne] at hlast
    exact (hlast hne).trans (h.kept o ho hne)
  · rw [h'.slots t (by rwa [h.slots t ht]), h.slots t ht]
  · rw [h'.filled, h.filled, or_assoc]
  · obtain ⟨rfl, rfl⟩ := h.unchanged fun t ht => hTU t (.inl ht)
    exact h'.unchanged fun t ht => hTU t (.inr ht)

/-- The slots of the inode have changed at `t` only. -/
theorem of_slot {t : Slot} {b : Nat} (hb : b ≠ 0) (hfields : ip' = { ip with addrs := ip'.addrs })
    (hfits : ip'.Fits)
    (hkept : ∀ o, o ≠ (i, .addr 12) → ownerAddr n disk (Function.update ino i ip) o ≠ 0 →
      disk' (ownerAddr n disk (Function.update ino i ip) o)
        = disk (ownerAddr n disk (Function.update ino i ip) o))
    (hempty : slotAddr disk ip t = 0) (hslot : slotAddr disk' ip' t = b)
    (hother : ∀ u, u ≠ t → slotAddr disk' ip' u = slotAddr disk ip u) :
    Filled n ino i ip disk (· = t) ip' disk' := by
  refine ⟨hfields, hfits, hkept, fun u hu => ?_, fun u => ?_, fun hT => absurd hempty (hT t rfl)⟩
  · exact hother u fun heq => hu (heq ▸ hempty)
  · by_cases hu : u = t
    · subst hu
      simp [hslot, hb]
    · simp [hother u hu, hu]

/-- The blocks stay owned when an unmarked one goes into the slot. -/
theorem owned {t : Slot} (h : Filled n ino i ip disk (· = t) ip' disk') (hi : i < n)
    (htype : ip.type ≠ 0) (hold : Owned (ownerAddr n disk (Function.update ino i ip)) marked Data)
    (hempty : slotAddr disk ip t = 0) (hdata : Data (slotAddr disk' ip' t))
    (hfree : ¬ marked (slotAddr disk' ip' t))
    (hmarks : ∀ c, Data c → (marked' c ↔ marked c ∨ c = slotAddr disk' ip' t)) :
    Owned (ownerAddr n disk' (Function.update ino i ip')) marked' Data := by
  have htype' : ip'.type ≠ 0 := h.type_eq ▸ htype
  refine hold.assign (s := (i, t)) ?_ hdata hfree (ownerAddr_self hi htype' t) ?_ hmarks
  · rw [ownerAddr_self hi htype, hempty]
  · rintro ⟨j, u⟩ hne
    by_cases hj : j = i
    · subst hj
      have hut : u ≠ t := fun heq => hne (heq ▸ rfl)
      rw [ownerAddr_self hi htype', ownerAddr_self hi htype]
      by_cases hu : slotAddr disk ip u = 0
      · have hnone : ¬ slotAddr disk' ip' u ≠ 0 := by
          rw [h.filled]
          exact fun hor => hor.elim (fun h => h hu) hut
        rw [hu]
        exact not_not.mp hnone
      · exact h.slots u hu
    · rw [ownerAddr_of_ne hj, ownerAddr_of_ne hj, h.others hj]

end Filled

theorem Dinode.Fits.setAddr (h : ip.Fits) {k addr : Nat} (hk : k < 13) (haddr : addr < 2 ^ 32) :
    (ip.setAddr k addr).Fits := by
  refine ⟨h.type, h.major, h.minor, h.nlink, h.size, fun j => ?_, fun j hj => ?_⟩
  · show Function.update ip.addrs k addr j < _
    rw [Function.update_apply]
    split
    · exact haddr
    · exact h.addrs j
  · exact (Function.update_of_ne (by omega) ..).trans (h.thirteen j hj)

/-- A new block is put into an element of `addrs`. -/
theorem filled_addr (h : Owned (ownerAddr n disk (Function.update ino i ip)) marked Data)
    (hi : i < n) (htype : ip.type ≠ 0) (hfits : ip.Fits) {k b : Nat} (hk : k < 13) (hb : b ≠ 0)
    (hsmall : b < 2 ^ 32) (hempty : ip.addrs k = 0) (hzero : disk' b = fun _ => 0)
    (hdisk : ∀ c, Data c → marked c → disk' c = disk c) :
    Filled n ino i ip disk (· = .addr ⟨k, hk⟩) (ip.setAddr k b) disk' := by
  refine Filled.of_slot (b := b) hb rfl (hfits.setAddr hk hsmall) (fun o _ ho => ?_) hempty
    (Function.update_self ..) fun u hu => ?_
  · have hdata := h.data o ho
    exact hdisk _ hdata ((h.marked_iff _ hdata).mpr ⟨o, rfl⟩)
  · cases u with
    | addr j => exact Function.update_of_ne (fun heq => hu (congrArg _ (Fin.ext heq))) ..
    | entry j =>
      show (if (ip.setAddr k b).addrs 12 = 0 then 0 else _) = (if ip.addrs 12 = 0 then 0 else _)
      by_cases h12 : k = 12
      · -- the new indirect block holds zeroes
        subst h12
        have hind : (ip.setAddr 12 b).addrs 12 = b := by simp [Dinode.setAddr]
        have hread : read32 (fun _ => 0) (4 * j) = 0 := rfl
        rw [hind, if_neg hb, hzero, hread, if_pos hempty]
      · have hind : (ip.setAddr k b).addrs 12 = ip.addrs 12 :=
          Function.update_of_ne (Ne.symm h12) ..
        rw [hind]
        by_cases h0 : ip.addrs 12 = 0
        · rw [if_pos h0, if_pos h0]
        · obtain ⟨hdata, hmark⟩ := owned_slot h hi htype (t := .addr 12) h0
          rw [if_neg h0, if_neg h0]
          exact congrArg (read32 · _) (hdisk _ hdata hmark)

/-- A new block is put into an entry of the indirect block. -/
theorem filled_entry (h : Owned (ownerAddr n disk (Function.update ino i ip)) marked Data)
    (hi : i < n) (htype : ip.type ≠ 0) (hfits : ip.Fits) (hind : ip.addrs 12 ≠ 0) {j : Fin 128}
    {b : Nat} (hb : b ≠ 0) (hsmall : b < 2 ^ 32) (hempty : read32 (disk (ip.addrs 12)) (4 * j) = 0)
    (hself : disk' (ip.addrs 12) = write32 (disk (ip.addrs 12)) (4 * j) b)
    (hdisk : ∀ c, Data c → marked c → c ≠ ip.addrs 12 → disk' c = disk c) :
    Filled n ino i ip disk (· = .entry j) ip disk' := by
  refine Filled.of_slot (b := b) hb rfl hfits (fun o ho hne => ?_)
    ((slotAddr_entry hind j).trans hempty) ?_ fun u hu => ?_
  · have hdata := h.data o hne
    refine hdisk _ hdata ((h.marked_iff _ hdata).mpr ⟨o, rfl⟩) fun heq => ho ?_
    exact h.unique o (i, .addr 12) hne (heq.trans (ownerAddr_self hi htype (.addr 12)).symm)
  · rw [slotAddr_entry hind, hself, read32_write32, Nat.mod_eq_of_lt hsmall]
  · cases u with
    | addr k => rfl
    | entry l =>
      have hlj : (l : Nat) ≠ j := fun heq => hu (by rw [Fin.val_inj.mp heq])
      rw [slotAddr_entry hind, slotAddr_entry hind, hself]
      exact read32_congr fun x _ _ => write32_apply_of_lt (by omega)

/-! ## Files without holes -/

/-- The first byte of the file that needs the slot. -/
def Slot.offset : Slot → Nat
  | .addr k => 512 * k
  | .entry j => 512 * (12 + j)

/-- The slots for the bytes before `e` are filled, and no others. -/
def Covered (disk : Disk) (ip : Dinode) (e : Nat) : Prop :=
  ∀ t : Slot, slotAddr disk ip t ≠ 0 ↔ t.offset < e

/-- The slots that are filled for block `bn` of the file. -/
def Wanted (bn : Nat) (t : Slot) : Prop :=
  (∃ h : bn < 140, t = slotOf bn h) ∨ 12 ≤ bn ∧ t = .addr 12

theorem slotOf_ne {bn : Nat} (hbn : bn < 140) : slotOf bn hbn ≠ .addr 12 := by
  unfold slotOf
  split
  · rename_i h
    intro heq
    injection heq with hk
    exact absurd (congrArg Fin.val hk) (by simp only [Fin.isValue]; omega)
  · exact nofun

theorem slotOf_offset {bn : Nat} (hbn : bn < 140) : (slotOf bn hbn).offset = 512 * bn := by
  unfold slotOf
  split
  · rfl
  · simp only [Slot.offset]
    omega

theorem slotOf_inj {bn bn' : Nat} {hbn : bn < 140} {hbn' : bn' < 140}
    (h : slotOf bn hbn = slotOf bn' hbn') : bn = bn' := by
  have heq := congrArg Slot.offset h
  rw [slotOf_offset, slotOf_offset] at heq
  omega

theorem Wanted.offset_le {bn : Nat} {t : Slot} (h : Wanted bn t) : t.offset ≤ 512 * bn := by
  rcases h with ⟨hbn, rfl⟩ | ⟨hle, rfl⟩
  · rw [slotOf_offset]
  · exact Nat.mul_le_mul_left 512 hle

theorem wanted_of_offset {bn : Nat} (hbn : bn < 140) {t : Slot} (h : t.offset = 512 * bn) :
    Wanted bn t := by
  cases t with
  | addr k =>
    have hk : (k : Nat) = bn := by
      simp only [Slot.offset] at h
      omega
    by_cases hdir : bn < 12
    · refine .inl ⟨hbn, ?_⟩
      rw [slotOf, dif_pos hdir, Slot.addr.injEq]
      exact Fin.ext hk
    · have hlast : k = 12 := Fin.ext (show (k : Nat) = 12 by omega)
      exact .inr ⟨not_lt.mp hdir, by rw [hlast]⟩
  | entry j =>
    have hj : 12 + (j : Nat) = bn := by
      simp only [Slot.offset] at h
      omega
    refine .inl ⟨hbn, ?_⟩
    rw [slotOf, dif_neg (by omega), Slot.entry.injEq]
    exact Fin.ext (by simp only; omega)

theorem offset_dvd (t : Slot) : 512 ∣ t.offset := by
  cases t <;> exact Nat.dvd_mul_right ..

/-- Filling the slots for the block at the end of the file moves the end. -/
theorem Covered.map {e e' bn : Nat} (h : Covered disk ip e) (hbn : bn < 140) (hle : 512 * bn ≤ e)
    (hlt : 512 * bn < e') (hup : e' ≤ 512 * (bn + 1))
    (hm : Filled n ino i ip disk (Wanted bn) ip' disk') : Covered disk' ip' (max e e') := by
  intro t
  rw [hm.filled, h t, lt_max_iff]
  constructor
  · rintro (ht | ht)
    · exact .inl ht
    · exact .inr (lt_of_le_of_lt ht.offset_le hlt)
  · rintro (ht | ht)
    · exact .inl ht
    · obtain ⟨q, hq⟩ := offset_dvd t
      by_cases heq : t.offset = 512 * bn
      · exact .inr (wanted_of_offset hbn heq)
      · exact .inl (by omega)

/-- The slots for a block that the file has are filled already. -/
theorem Covered.unchanged {e bn : Nat} (h : Covered disk ip e) (hlt : 512 * bn < e)
    (hm : Filled n ino i ip disk (Wanted bn) ip' disk') : ip' = ip ∧ disk' = disk :=
  hm.unchanged fun t ht => (h t).mpr (lt_of_le_of_lt ht.offset_le hlt)

/-! ## The bytes of a file -/

/-- The file as a list of bytes. -/
def contents (disk : Disk) (ip : Dinode) : List UInt8 :=
  (List.range ip.size).map (fileByte disk ip)

@[simp]
theorem length_contents : (contents disk ip).length = ip.size := by
  rw [contents, List.length_map, List.length_range]

@[simp]
theorem getElem_contents {x : Nat} (hx : x < (contents disk ip).length) :
    (contents disk ip)[x] = fileByte disk ip x := by
  simp only [contents, List.getElem_map, List.getElem_range]

theorem contents_slice {off m : Nat} (h : off + m ≤ ip.size) :
    ((contents disk ip).drop off).take m = (List.range m).map fun x => fileByte disk ip (off + x) := by
  refine List.ext_getElem (by simp; omega) fun x hx hx' => ?_
  simp only [List.getElem_take, List.getElem_drop, getElem_contents, List.getElem_map,
    List.getElem_range]

/-- Bytes depend on one slot and the block in it. -/
theorem fileByte_congr {x : Nat} (h : ∀ hbn : x / 512 < 140,
      slotAddr disk' ip' (slotOf (x / 512) hbn) = slotAddr disk ip (slotOf (x / 512) hbn) ∧
      disk' (slotAddr disk ip (slotOf (x / 512) hbn)) = disk (slotAddr disk ip (slotOf (x / 512) hbn))) :
    fileByte disk' ip' x = fileByte disk ip x := by
  unfold fileByte
  by_cases hbn : x / 512 < 140
  · obtain ⟨hslot, hdata⟩ := h hbn
    rw [dif_pos hbn, dif_pos hbn, hslot, hdata]
  · rw [dif_neg hbn, dif_neg hbn]

theorem Covered.slot {e x : Nat} (h : Covered disk ip e) (hx : x < e) (hbn : x / 512 < 140) :
    slotAddr disk ip (slotOf (x / 512) hbn) ≠ 0 :=
  (h _).mpr (by rw [slotOf_offset]; omega)

/-- Filling slots leaves the bytes of the file. -/
theorem Filled.fileByte {T : Slot → Prop} {e x : Nat} (h : Filled n ino i ip disk T ip' disk')
    (hi : i < n) (htype : ip.type ≠ 0) (hcov : Covered disk ip e) (hx : x < e) :
    fileByte disk' ip' x = fileByte disk ip x := by
  refine fileByte_congr fun hbn => ?_
  have hslot := hcov.slot hx hbn
  have hkept := h.kept (i, slotOf (x / 512) hbn) fun heq => slotOf_ne hbn (congrArg Prod.snd heq)
  rw [ownerAddr_self hi htype] at hkept
  exact ⟨h.slots _ hslot, hkept hslot⟩

/-- The bytes of another file, when the slots and blocks of that file are the same. -/
theorem fileByte_other {j e x : Nat} (hj : j < n) (htype : (ino j).type ≠ 0)
    (hcov : Covered disk (ino j) e) (hx : x < e)
    (howner : ∀ t, ownerAddr n disk' ino (j, t) = ownerAddr n disk ino (j, t))
    (hkept : ∀ t, ownerAddr n disk ino (j, t) ≠ 0 →
      disk' (ownerAddr n disk ino (j, t)) = disk (ownerAddr n disk ino (j, t))) :
    fileByte disk' (ino j) x = fileByte disk (ino j) x := by
  refine fileByte_congr fun hbn => ?_
  have hslot := hcov.slot hx hbn
  rw [slotAddr_eq_owner hj htype] at hslot ⊢
  rw [slotAddr_eq_owner hj htype]
  exact ⟨howner _, hkept _ hslot⟩

/-- A block of the file is written: nobody keeps block addresses there, and no other block
that has an owner changes. -/
theorem owned_writeData (h : Owned (ownerAddr n disk (Function.update ino i ip)) marked Data)
    (hi : i < n) (htype : ip.type ≠ 0) {t : Slot} (h12 : t ≠ .addr 12) (data : Block) :
    (∀ o, ownerAddr n (Function.update disk (slotAddr disk ip t) data) (Function.update ino i ip) o
      = ownerAddr n disk (Function.update ino i ip) o) ∧
    ∀ o, o ≠ (i, t) → ownerAddr n disk (Function.update ino i ip) o ≠ 0 →
      Function.update disk (slotAddr disk ip t) data (ownerAddr n disk (Function.update ino i ip) o)
        = disk (ownerAddr n disk (Function.update ino i ip) o) := by
  have hself : ownerAddr n disk (Function.update ino i ip) (i, t) = slotAddr disk ip t :=
    ownerAddr_self hi htype t
  have hkept : ∀ o, o ≠ (i, t) → ownerAddr n disk (Function.update ino i ip) o ≠ 0 →
      Function.update disk (slotAddr disk ip t) data (ownerAddr n disk (Function.update ino i ip) o)
        = disk (ownerAddr n disk (Function.update ino i ip) o) := fun o ho hne =>
    Function.update_of_ne (fun heq => ho (h.unique o (i, t) hne (heq.trans hself.symm))) ..
  exact ⟨fun o => ownerAddr_congr (hkept _ fun heq => h12 (congrArg Prod.snd heq).symm), hkept⟩

/-- The bytes of the file after bytes were stored in one of its blocks. -/
theorem fileByte_store (h : Owned (ownerAddr n disk (Function.update ino i ip)) marked Data)
    (hi : i < n) (htype : ip.type ≠ 0) {e bn a x : Nat} (hcov : Covered disk ip e) (hbn : bn < 140)
    (bs : List UInt8) (hlen : a + bs.length ≤ 512) (hx : x < e) :
    fileByte (Function.update disk (slotAddr disk ip (slotOf bn hbn))
        (storeBytes (disk (slotAddr disk ip (slotOf bn hbn))) a bs)) ip x
      = if 512 * bn + a ≤ x ∧ x < 512 * bn + a + bs.length then bs.getD (x - (512 * bn + a)) 0
        else fileByte disk ip x := by
  obtain ⟨howner, hkept⟩ := owned_writeData h hi htype (slotOf_ne hbn)
    (storeBytes (disk (slotAddr disk ip (slotOf bn hbn))) a bs)
  have hslots : ∀ t, slotAddr _ ip t = slotAddr disk ip t := fun t => by
    simpa only [ownerAddr_self hi htype] using howner (i, t)
  by_cases hblock : x / 512 = bn
  · subst hblock
    unfold fileByte
    rw [dif_pos hbn, dif_pos hbn, hslots, Function.update_self]
    unfold storeBytes
    have hmod : x = 512 * (x / 512) + x % 512 := (Nat.div_add_mod x 512).symm
    by_cases hin : a ≤ x % 512 ∧ x % 512 < a + bs.length
    · rw [if_pos hin, if_pos (by omega)]
      congr 1
      omega
    · rw [if_neg hin, if_neg (by omega)]
  · rw [if_neg (by omega)]
    refine fileByte_congr fun hbn' => ⟨hslots _, ?_⟩
    have hne : slotOf (x / 512) hbn' ≠ slotOf bn hbn := fun heq => hblock (slotOf_inj heq)
    have hother := hkept (i, slotOf (x / 512) hbn') fun heq => hne (congrArg Prod.snd heq)
    rw [ownerAddr_self hi htype] at hother
    exact hother (hcov.slot hx hbn')

end Xv6Sharing.Fs
