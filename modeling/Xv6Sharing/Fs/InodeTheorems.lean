/-
Xv6Sharing.Fs.InodeTheorems — reading, writing and truncating a file keep the
ownership of blocks.

`writei` and `readi` go through the blocks of a file one by one. What a loop has
written so far is said with `Covered`; reading in a file without holes fills no
slot, so it changes nothing and returns the bytes of the file. Writing takes the
blocks that the longer file needs, and panics when fewer are free.
-/
import Xv6Sharing.Fs.BlockTheorems

namespace Xv6Sharing.Fs

open Lib

variable {sb : Superblock} {ino : Nat → Dinode} {ip ip' : Dinode} {i : Nat} {disk disk' : Disk}

/-! ## readi and writei -/

/-- The bytes of a block of the file are nobody's block addresses. -/
theorem BlocksOwned.writeData (hv : sb.Valid) (h : BlocksOwned sb disk (Function.update ino i ip))
    (hi : i < sb.ninodes) (htype : ip.type ≠ 0) {t : Slot} (ht : slotAddr disk ip t ≠ 0)
    (h12 : t ≠ .addr 12) (data : Block) :
    BlocksOwned sb (Function.update disk (slotAddr disk ip t) data) (Function.update ino i ip) ∧
      (∀ o, ownerAddr sb.ninodes (Function.update disk (slotAddr disk ip t) data)
        (Function.update ino i ip) o = ownerAddr sb.ninodes disk (Function.update ino i ip) o) ∧
      SameMeta sb disk (Function.update disk (slotAddr disk ip t) data) ∧
      (∀ o, o ≠ (i, t) → ownerAddr sb.ninodes disk (Function.update ino i ip) o ≠ 0 →
        Function.update disk (slotAddr disk ip t) data
            (ownerAddr sb.ninodes disk (Function.update ino i ip) o)
          = disk (ownerAddr sb.ninodes disk (Function.update ino i ip) o)) ∧
      freeBlocks sb (Function.update disk (slotAddr disk ip t) data) = freeBlocks sb disk := by
  obtain ⟨hdata, -⟩ := owned_slot h.owned hi htype ht
  obtain ⟨howner, hkept⟩ := owned_writeData h.owned hi htype h12 data
  have hmarks : ∀ c < sb.size, Marked sb (Function.update disk (slotAddr disk ip t) data) c ↔
      Marked sb disk c := by
    intro c hc
    have hbm : sb.bblock c ≠ slotAddr disk ip t := fun heq =>
      hv.bitmap_not_data ⟨c, hc, rfl⟩ (heq ▸ hdata)
    exact marked_congr (Function.update_of_ne hbm ..)
  refine ⟨⟨h.owned.congr howner fun c hc => hmarks c hc.2, fun c hc => ?_⟩, howner,
    fun c hc hbm => ?_, hkept, freeBlocks_congr hmarks⟩
  · exact (hmarks c (by omega)).mpr (h.metadata c hc)
  · exact Function.update_of_ne (fun heq => absurd hdata.1 (by omega)) ..

/-- The file of `e₀` bytes has been extended to `e`. -/
structure Extended (sb : Superblock) (ino : Nat → Dinode) (i : Nat) (ip : Dinode) (disk : Disk)
    (e₀ e : Nat) (ip' : Dinode) (disk' : Disk) : Prop where
  blocks : BlocksOwned sb disk' (Function.update ino i ip')
  fields : ip' = { ip with addrs := ip'.addrs }
  fits : ip'.Fits
  same : SameMeta sb disk disk'
  others : ∀ o : Nat × Slot, o.1 ≠ i →
    ownerAddr sb.ninodes disk' ino o = ownerAddr sb.ninodes disk ino o
  kept : ∀ o : Nat × Slot, o.1 ≠ i → ownerAddr sb.ninodes disk ino o ≠ 0 →
    disk' (ownerAddr sb.ninodes disk ino o) = disk (ownerAddr sb.ninodes disk ino o)
  covered : Covered disk' ip' e
  room : freeBlocks sb disk' + blocksFor e = freeBlocks sb disk + blocksFor e₀

/-- The bytes `src` were stored at `off` in a file that had the bytes before `e`. -/
def Stored (disk : Disk) (ip : Dinode) (src : List UInt8) (off e : Nat) (ip' : Dinode)
    (disk' : Disk) : Prop :=
  ∀ x, x < max e (off + src.length) → fileByte disk' ip' x
    = if off ≤ x ∧ x < off + src.length then src.getD (x - off) 0 else fileByte disk ip x

theorem extended_nil {e off : Nat} {src : List UInt8}
    (h : BlocksOwned sb disk (Function.update ino i ip)) (hfits : ip.Fits)
    (hcov : Covered disk ip e) (hoff : off ≤ e) (hnil : src = []) :
    Extended sb ino i ip disk e (max e (off + src.length)) ip disk ∧
      (off + src.length ≤ e → ip = ip) ∧ Stored disk ip src off e ip disk := by
  subst hnil
  rw [List.length_nil, Nat.add_zero, max_eq_left hoff]
  exact ⟨⟨h, rfl, hfits, SameMeta.refl _, fun _ _ => rfl, fun _ _ _ => rfl, hcov, rfl⟩,
    fun _ => rfl, fun x _ => (if_neg (by simp)).symm⟩

theorem writeLoop_spec {Err : Panic → Prop} (hv : sb.Valid) {s : Store}
    (h : BlocksOwned sb s.disk (Function.update ino i ip)) (hi : i < sb.ninodes)
    (htype : ip.type ≠ 0) (hfits : ip.Fits) {e off fuel : Nat} {src : List UInt8}
    (hcov : Covered s.disk ip e) (hoff : off ≤ e) (hfuel : src.length ≤ fuel)
    (hmax : off + src.length ≤ 140 * 512)
    (hfull : freeBlocks sb s.disk + blocksFor e < blocksFor (max e (off + src.length)) →
      Err .outOfBlocks) :
    Spec Err (writeLoop sb fuel ip src off) s fun ip' s' =>
      Extended sb ino i ip s.disk e (max e (off + src.length)) ip' s'.disk ∧
        (off + src.length ≤ e → ip' = ip) ∧ Stored s.disk ip src off e ip' s'.disk := by
  induction fuel generalizing ip s e off src with
  | zero =>
    have hnil : src = [] := List.length_eq_zero_iff.mp (by omega)
    exact Spec.pure (extended_nil h hfits hcov hoff hnil)
  | succ fuel ih =>
    unfold writeLoop
    by_cases hnil : src = []
    · rw [if_pos hnil]
      exact Spec.pure (extended_nil h hfits hcov hoff hnil)
    · rw [if_neg hnil]
      have hpos : 0 < src.length := List.length_pos_iff.mpr hnil
      have hbn : off / 512 < 140 := by omega
      refine Spec.seq (bmap_spec hv h hi htype hfits hbn fun hfew =>
        hfull (hfew.blocksFor hcov (by omega))) fun r s₁ hm => ?_
      obtain ⟨ip₁, addr⟩ := r
      obtain ⟨hm, haddr⟩ := hm
      simp only at hm haddr
      refine Spec.seq_ok (m := bread addr) rfl ?_
      generalize hmin : min src.length (512 - off % 512) = m
      have hm0 : 0 < m := by omega
      have hmle : m ≤ src.length := by omega
      have hcov₁ : Covered s₁.disk ip₁ (max e (off + m)) :=
        hcov.map hbn (by omega) (by omega) (by omega) hm.toFilled
      have htype₁ : ip₁.type ≠ 0 := hm.type_eq ▸ htype
      have hslot : slotAddr s₁.disk ip₁ (slotOf (off / 512) hbn) ≠ 0 :=
        (hm.filled _).mpr (.inr (.inl ⟨hbn, rfl⟩))
      refine Spec.seq_ok (m := logWrite addr _) rfl ?_
      rw [haddr]
      obtain ⟨howned, howner, hsame, hkept, hfree⟩ := hm.blocks.writeData hv hi htype₁ hslot (slotOf_ne hbn)
        (storeBytes (s₁.disk (slotAddr s₁.disk ip₁ (slotOf (off / 512) hbn))) (off % 512)
          (src.take m))
      have hslots : ∀ t, slotAddr _ ip₁ t = slotAddr s₁.disk ip₁ t := fun t => by
        simpa only [ownerAddr_self hi htype₁] using howner (i, t)
      have hlen : (src.drop m).length = src.length - m := List.length_drop
      have htake : (src.take m).length = m := List.length_take_of_le hmle
      have hcov₂ : Covered _ ip₁ (max e (off + m)) := fun t => by
        rw [hslots t]
        exact hcov₁ t
      have hoff₂ : off + m ≤ max e (off + m) := le_max_right ..
      have hend : max (max e (off + m)) (off + m + (src.drop m).length)
          = max e (off + src.length) := by omega
      -- what the block took of the free ones
      have hroom := hm.room
      rw [hcov.heldBlocks, hcov₁.heldBlocks, ← hfree] at hroom
      refine Spec.mono (ih howned htype₁ hm.fits hcov₂ hoff₂ (by omega) (by omega)
        (fun hfew => hfull (by rwa [hend, hroom] at hfew))) ?_
      rintro ip₂ s₂ ⟨hext, hsameip, hstored⟩
      have hroom' := hext.room.trans hroom
      rw [hend] at hroom'
      refine ⟨⟨hext.blocks, ?_, hext.fits, (hm.same.trans hsame).trans hext.same, fun o ho => ?_,
        fun o ho hne => ?_, hend ▸ hext.covered, hroom'⟩, fun hle => ?_, fun x hx => ?_⟩
      · rw [hext.fields, hm.fields]
      · have hdata := howner o
        rw [ownerAddr_of_ne ho, ownerAddr_of_ne ho] at hdata
        rw [hext.others o ho, hdata, hm.others ho]
      · -- the block of another inode is not the one written, nor the indirect block
        have hoi : ∀ t, o ≠ (i, t) := fun t heq => ho (congrArg Prod.fst heq)
        have hfirst := hm.kept o (hoi _)
        have hsecond := hkept o (hoi _)
        have hthird := hext.kept o ho
        have hdata := howner o
        rw [ownerAddr_of_ne ho, ownerAddr_of_ne ho] at hdata
        rw [ownerAddr_of_ne ho] at hfirst hsecond
        rw [hdata] at hthird
        rw [hm.others ho] at hsecond hthird
        exact (hthird hne).trans ((hsecond hne).trans (hfirst hne))
      · rw [hsameip (by omega)]
        exact (hcov.unchanged (by omega) hm.toFilled).1
      · rw [hstored x (by omega)]
        by_cases hrest : off + m ≤ x ∧ x < off + m + (src.drop m).length
        · rw [if_pos hrest, if_pos (by omega), List.getD_eq_getElem?_getD, List.getElem?_drop,
            ← List.getD_eq_getElem?_getD]
          congr 1
          omega
        · have hblock := fileByte_store hm.blocks.owned hi htype₁ hcov₁ hbn (src.take m) (a := off % 512)
            (x := x) (by omega) (by omega)
          rw [if_neg hrest, hblock, htake, Nat.div_add_mod]
          by_cases hin : off ≤ x ∧ x < off + m
          · rw [if_pos hin, if_pos (by omega), List.getD_eq_getElem?_getD,
              List.getElem?_take_of_lt (by omega), ← List.getD_eq_getElem?_getD]
          · rw [if_neg hin, if_neg (by omega)]
            exact hm.toFilled.fileByte hi htype hcov (by omega)

/-- Reading bytes that the file has changes nothing, and returns them. -/
theorem readLoop_spec {Err : Panic → Prop} {s : Store} {e off n fuel : Nat}
    (hrange : 140 * 512 < e → Err .outOfRange) (hcov : Covered s.disk ip e) (hend : off + n ≤ e)
    (hfuel : n ≤ fuel) :
    Spec Err (readLoop sb fuel ip off n) s fun r s' =>
      r = (ip, (List.range n).map fun x => fileByte s.disk ip (off + x)) ∧ s' = s := by
  induction fuel generalizing off n with
  | zero =>
    have hn : n = 0 := by omega
    subst hn
    exact Spec.pure ⟨rfl, rfl⟩
  | succ fuel ih =>
    unfold readLoop
    by_cases hn : n = 0
    · rw [if_pos hn]
      subst hn
      exact Spec.pure ⟨rfl, rfl⟩
    · rw [if_neg hn]
      by_cases hbn : off / 512 < 140
      · refine Spec.seq_ok (bmap_filled hbn fun t ht =>
          (hcov t).mpr (lt_of_le_of_lt ht.offset_le (by omega))) ?_
        refine Spec.seq_ok (m := bread _) rfl ?_
        generalize hmin : min n (512 - off % 512) = m
        have hend' : off + m + (n - m) ≤ e := by omega
        refine Spec.seq (ih hend' (by omega)) ?_
        rintro r s' ⟨rfl, rfl⟩
        refine Spec.pure ⟨?_, rfl⟩
        -- the first `m` bytes lie in one block
        have hblock : ∀ x < m, s'.disk (slotAddr s'.disk ip (slotOf (off / 512) hbn))
            (off % 512 + x) = fileByte s'.disk ip (off + x) := by
          intro x hx
          have hdiv : (off + x) / 512 = off / 512 := by omega
          have hmod : (off + x) % 512 = off % 512 + x := by omega
          simp only [fileByte, hdiv, hmod, dif_pos hbn]
        have hsplit : List.range n = List.range m ++ (List.range (n - m)).map (m + ·) := by
          rw [← List.range_add]
          congr 1
          omega
        rw [hsplit, List.map_append, List.map_map,
          List.map_congr_left fun x hx => hblock x (List.mem_range.mp hx)]
        simp only [Function.comp_def, Nat.add_assoc]
      · have hbmap : bmap sb ip (off / 512) s = .error .outOfRange := by
          unfold bmap
          rw [if_neg (by omega), if_neg (by omega)]
          rfl
        exact Spec.of_error (bind_error hbmap) (hrange (by omega))

/-! ## iupdate and ialloc -/

/-- Ownership does not depend on the other fields. -/
theorem BlocksOwned.sameAddrs (h : BlocksOwned sb disk (Function.update ino i ip))
    (htype : ip'.type = ip.type) (haddrs : ip'.addrs = ip.addrs) :
    BlocksOwned sb disk (Function.update ino i ip') := by
  refine ⟨h.owned.congr (fun o => ?_) fun _ _ => Iff.rfl, h.metadata⟩
  by_cases ho : o.1 = i
  · have hslot : slotAddr disk ip' o.2 = slotAddr disk ip o.2 := by
      cases o.2 with
      | addr k => exact congrFun haddrs k
      | entry j => rw [slotAddr, slotAddr, haddrs]
    unfold ownerAddr
    rw [ho, Function.update_self, Function.update_self, hslot, htype]
  · rw [ownerAddr_of_ne ho, ownerAddr_of_ne ho]

/-- Storing an inode changes no block that matters to the slots. -/
theorem BlocksOwned.putInode (hv : sb.Valid) (h : BlocksOwned sb disk ino)
    (hi : i < sb.ninodes) (d : Dinode) : BlocksOwned sb
      (Function.update disk (sb.iblock i) (putInode (disk (sb.iblock i)) (i % 8) d)) ino ∧
    (∀ o, ownerAddr sb.ninodes (Function.update disk (sb.iblock i)
      (Fs.putInode (disk (sb.iblock i)) (i % 8) d)) ino o = ownerAddr sb.ninodes disk ino o) ∧
    freeBlocks sb (Function.update disk (sb.iblock i)
      (Fs.putInode (disk (sb.iblock i)) (i % 8) d)) = freeBlocks sb disk := by
  have hmeta := hv.iblock_lt hi
  have hmarks : ∀ c < sb.size, Marked sb (Function.update disk (sb.iblock i)
      (Fs.putInode (disk (sb.iblock i)) (i % 8) d)) c ↔ Marked sb disk c := by
    intro c hc
    exact marked_congr (Function.update_of_ne
      (fun heq => hv.iblock_not_bitmap hi ⟨c, hc, heq.symm⟩) ..)
  have howner : ∀ o, ownerAddr sb.ninodes (Function.update disk (sb.iblock i)
      (Fs.putInode (disk (sb.iblock i)) (i % 8) d)) ino o = ownerAddr sb.ninodes disk ino o :=
    ownerAddr_congr_of_owned h.owned fun c hc _ =>
      Function.update_of_ne (fun heq => absurd hc.1 (by omega)) ..
  exact ⟨⟨h.owned.congr howner fun c hc => hmarks c hc.2,
    fun c hc => (hmarks c (by omega)).mpr (h.metadata c hc)⟩, howner, freeBlocks_congr hmarks⟩

/-- An inode without blocks takes the place of one that owns nothing. -/
theorem BlocksOwned.replaceEmpty (h : BlocksOwned sb disk ino)
    (hnone : ∀ t, ownerAddr sb.ninodes disk ino (i, t) = 0) (hip : ∀ k, ip.addrs k = 0) :
    BlocksOwned sb disk (Function.update ino i ip) := by
  refine ⟨h.owned.congr (fun o => ?_) fun _ _ => Iff.rfl, h.metadata⟩
  by_cases ho : o.1 = i
  · obtain ⟨j, t⟩ := o
    subst ho
    rw [hnone, ownerAddr, Function.update_self, slotAddr_eq_zero hip, ite_self]
  · exact ownerAddr_of_ne ho

/-! ## itrunc -/

/-- Only the bitmap has changed. -/
def SameBlocks (sb : Superblock) (disk disk' : Disk) : Prop :=
  ∀ c, ¬ sb.Bitmap c → disk' c = disk c

theorem SameBlocks.trans {d₁ d₂ d₃ : Disk} (h : SameBlocks sb d₁ d₂) (h' : SameBlocks sb d₂ d₃) :
    SameBlocks sb d₁ d₃ :=
  fun c hc => (h' c hc).trans (h c hc)

theorem SameBlocks.sameMeta (h : SameBlocks sb disk disk') : SameMeta sb disk disk' :=
  fun c _ hb => h c hb

/-- `bfree` of what a slot holds, seen on the marks alone. -/
theorem bfree_owned {S : Type} {addr addr' : S → Nat} {s : Store}
    (h : Owned addr (Marked sb s.disk) sb.Data) {o : S} (ho : addr o ≠ 0) (hslot : addr' o = 0)
    (hother : ∀ u, u ≠ o → addr' u = addr u) :
    ∃ s', bfree sb (addr o) s = .ok ((), s') ∧ Owned addr' (Marked sb s'.disk) sb.Data ∧
      SameBlocks sb s.disk s'.disk ∧
      ∀ c < sb.size - sb.nblocks, Marked sb s.disk c → Marked sb s'.disk c := by
  have hdata := h.data o ho
  obtain ⟨s', hrun, hmarks, hkept⟩ := bfree_run ((h.marked_iff _ hdata).mpr ⟨o, rfl⟩)
  refine ⟨s', hrun, h.release hslot hother fun c _ => hmarks c, fun c hc => ?_, fun c hc hm => ?_⟩
  · exact hkept c fun heq => hc ⟨_, hdata.2, heq⟩
  · exact (hmarks c).mpr ⟨hm, fun heq => absurd hdata.1 (by omega)⟩

/-- Clearing a direct address empties its slot and no other. -/
theorem ownerAddr_clear (hi : i < sb.ninodes) (htype : ip.type ≠ 0) {k : Nat} (hk : k < 12)
    (o : Nat × Slot) : ownerAddr sb.ninodes disk (Function.update ino i (ip.setAddr k 0)) o =
      if o = (i, .addr ⟨k, by omega⟩) then 0
      else ownerAddr sb.ninodes disk (Function.update ino i ip) o := by
  obtain ⟨j, t⟩ := o
  have htype' : (ip.setAddr k 0).type ≠ 0 := htype
  by_cases hj : j = i
  · subst hj
    rw [ownerAddr_self hi htype', ownerAddr_self hi htype]
    cases t with
    | addr l =>
      show Function.update ip.addrs k 0 l = _
      rw [Function.update_apply]
      exact if_congr (by simp [Fin.ext_iff]) rfl rfl
    | entry l =>
      have hind : (ip.setAddr k 0).addrs 12 = ip.addrs 12 := Function.update_of_ne (by omega) ..
      rw [if_neg (by simp)]
      show (if (ip.setAddr k 0).addrs 12 = 0 then 0
        else read32 (disk ((ip.setAddr k 0).addrs 12)) _) = _
      rw [hind]
      rfl
  · rw [ownerAddr_of_ne hj, ownerAddr_of_ne hj, if_neg (by simp [hj])]

theorem truncDirect_spec (hv : sb.Valid) {s : Store}
    (h : BlocksOwned sb s.disk (Function.update ino i ip)) (hi : i < sb.ninodes)
    (htype : ip.type ≠ 0) (hfits : ip.Fits) (n k : Nat) (hk : k + n ≤ 12) :
    Spec (fun _ => False) (truncDirect sb n k ip) s fun ip' s' =>
      BlocksOwned sb s'.disk (Function.update ino i ip') ∧ SameBlocks sb s.disk s'.disk ∧
      ip'.Fits ∧ ip' = { ip with addrs := ip'.addrs } ∧
      ∀ j, ip'.addrs j = if k ≤ j ∧ j < k + n then 0 else ip.addrs j := by
  induction n generalizing k ip s with
  | zero =>
    refine Spec.pure ⟨h, fun _ _ => rfl, hfits, rfl, fun j => ?_⟩
    rw [if_neg (by omega)]
  | succ n ih =>
    unfold truncDirect
    by_cases h0 : ip.addrs k = 0
    · rw [if_pos h0]
      refine Spec.mono (ih h htype hfits (k + 1) (by omega)) ?_
      rintro ip' s' ⟨howned, hsame, hfits', hfields, haddrs⟩
      refine ⟨howned, hsame, hfits', hfields, fun j => ?_⟩
      rw [haddrs]
      by_cases hj : j = k
      · rw [hj, if_neg (by omega), if_pos (by omega), h0]
      · exact if_congr (by omega) rfl rfl
    · rw [if_neg h0]
      have hself : ownerAddr sb.ninodes s.disk (Function.update ino i ip) (i, .addr ⟨k, by omega⟩)
          = ip.addrs k := ownerAddr_self hi htype _
      have hclear : ∀ o, ownerAddr sb.ninodes s.disk (Function.update ino i (ip.setAddr k 0)) o = _ :=
        ownerAddr_clear hi htype (by omega)
      obtain ⟨s', hrun, howned, hsame, hmeta⟩ := bfree_owned h.owned (by rwa [hself])
        ((hclear _).trans (if_pos rfl)) fun o ho => (hclear o).trans (if_neg ho)
      rw [hself] at hrun
      refine Spec.seq_ok hrun ?_
      have howned' : BlocksOwned sb s'.disk (Function.update ino i (ip.setAddr k 0)) := by
        refine ⟨howned.congr (fun o => ownerAddr_congr fun hj => ?_) fun _ _ => Iff.rfl,
          fun c hc => hmeta c hc (h.metadata c hc)⟩
        exact hsame _ fun hb => hv.bitmap_not_data hb (howned.data _ hj)
      refine Spec.mono (ih howned' htype (hfits.setAddr (by omega) (by decide)) (k + 1)
        (by omega)) ?_
      rintro ip' s'' ⟨howned'', hsame', hfits', hfields, haddrs⟩
      refine ⟨howned'', hsame.trans hsame', hfits', hfields, fun j => ?_⟩
      rw [haddrs]
      by_cases hj : j = k
      · rw [hj, if_neg (by omega), if_pos (by omega)]
        exact Function.update_self ..
      · have hset : (ip.setAddr k 0).addrs j = ip.addrs j := Function.update_of_ne hj ..
        rw [hset]
        exact if_congr (by omega) rfl rfl

/-- The owners without the first `j` entries of the indirect block of inode `i`. -/
def cutEntries (i j : Nat) (addr : Nat × Slot → Nat) : Nat × Slot → Nat
  | (i', .entry l) => if i' = i ∧ l < j then 0 else addr (i', .entry l)
  | o => addr o

theorem truncIndirect_spec {addr : Nat × Slot → Nat} {a : Block} {s : Store} (n j : Nat)
    (hj : j + n = 128) (haddr : ∀ l : Fin 128, addr (i, .entry l) = read32 a (4 * l))
    (h : Owned (cutEntries i j addr) (Marked sb s.disk) sb.Data) :
    Spec (fun _ => False) (truncIndirect sb a n j) s fun _ s' =>
      Owned (cutEntries i 128 addr) (Marked sb s'.disk) sb.Data ∧ SameBlocks sb s.disk s'.disk ∧
      ∀ c < sb.size - sb.nblocks, Marked sb s.disk c → Marked sb s'.disk c := by
  induction n generalizing j s with
  | zero =>
    have h128 : j = 128 := by omega
    subst h128
    exact Spec.pure ⟨h, fun _ _ => rfl, fun _ _ hm => hm⟩
  | succ n ih =>
    have hlt : j < 128 := by omega
    have hself : cutEntries i j addr (i, .entry ⟨j, hlt⟩) = read32 a (4 * j) := by
      rw [cutEntries, if_neg (by simp), haddr]
    have hslot : cutEntries i (j + 1) addr (i, .entry ⟨j, hlt⟩) = 0 := if_pos ⟨rfl, by simp⟩
    have hother : ∀ o, o ≠ (i, .entry ⟨j, hlt⟩) →
        cutEntries i (j + 1) addr o = cutEntries i j addr o := by
      rintro ⟨i', t⟩ hne
      cases t with
      | addr k => rfl
      | entry l =>
        have hne' : ¬ (i' = i ∧ (l : Nat) = j) := by
          rintro ⟨rfl, hl⟩
          exact hne (by rw [Fin.ext (a := l) (b := ⟨j, hlt⟩) hl])
        exact if_congr (by omega) rfl rfl
    unfold truncIndirect
    by_cases h0 : read32 a (4 * j) = 0
    · rw [if_pos h0]
      refine ih (j + 1) (by omega) (h.congr (fun o => ?_) fun _ _ => Iff.rfl)
      by_cases ho : o = (i, .entry ⟨j, hlt⟩)
      · rw [ho, hslot, hself, h0]
      · exact hother o ho
    · rw [if_neg h0]
      obtain ⟨s', hrun, howned, hsame, hmeta⟩ := bfree_owned h (by rwa [hself]) hslot hother
      rw [hself] at hrun
      refine Spec.seq_ok hrun ?_
      refine Spec.mono (ih (j + 1) (by omega) howned) ?_
      rintro _ s'' ⟨howned', hsame', hmeta'⟩
      exact ⟨howned', hsame.trans hsame', fun c hc hm => hmeta' c hc (hmeta c hc hm)⟩

/-- Dropping the indirect block drops its entries. -/
theorem ownerAddr_clear_indirect (hi : i < sb.ninodes) (htype : ip.type ≠ 0) (o : Nat × Slot) :
    ownerAddr sb.ninodes disk (Function.update ino i (ip.setAddr 12 0)) o =
      if o = (i, .addr 12) then 0
      else cutEntries i 128 (ownerAddr sb.ninodes disk (Function.update ino i ip)) o := by
  obtain ⟨j, t⟩ := o
  have htype' : (ip.setAddr 12 0).type ≠ 0 := htype
  by_cases hj : j = i
  · subst hj
    rw [ownerAddr_self hi htype']
    cases t with
    | addr l =>
      show Function.update ip.addrs 12 0 l = _
      rw [Function.update_apply, cutEntries, ownerAddr_self hi htype]
      · exact if_congr (by simp [Fin.ext_iff]) rfl rfl
      · exact nofun
    | entry l =>
      have hind : (ip.setAddr 12 0).addrs 12 = 0 := by simp [Dinode.setAddr]
      rw [if_neg (by simp), cutEntries, if_pos ⟨rfl, l.isLt⟩, slotAddr, if_pos hind]
  · rw [ownerAddr_of_ne hj, if_neg (by simp [hj])]
    cases t with
    | addr l => exact (ownerAddr_of_ne hj).symm
    | entry l => rw [cutEntries, if_neg (by simp [hj]), ownerAddr_of_ne hj]

/-- The indirect block and its entries are given back. -/
theorem truncLast_spec (hv : sb.Valid) {s : Store}
    (h : BlocksOwned sb s.disk (Function.update ino i ip)) (hi : i < sb.ninodes)
    (htype : ip.type ≠ 0) :
    Spec (fun _ => False) (truncLast sb ip) s fun ip' s' =>
      ip' = { ip with addrs := Function.update ip.addrs 12 0 } ∧
      BlocksOwned sb s'.disk (Function.update ino i ip') ∧ SameBlocks sb s.disk s'.disk := by
  unfold truncLast
  by_cases hind : ip.addrs 12 = 0
  · rw [if_pos hind]
    refine Spec.pure ⟨?_, h, fun _ _ => rfl⟩
    rw [← hind, Function.update_eq_self]
  · rw [if_neg hind]
    refine Spec.seq_ok (m := bread _) rfl ?_
    have hself : ∀ t, ownerAddr sb.ninodes s.disk (Function.update ino i ip) (i, t)
        = slotAddr s.disk ip t := ownerAddr_self hi htype
    have hcut : ∀ o, cutEntries i 0 (ownerAddr sb.ninodes s.disk (Function.update ino i ip)) o
        = ownerAddr sb.ninodes s.disk (Function.update ino i ip) o := by
      rintro ⟨j, t⟩
      cases t with
      | addr k => rfl
      | entry l => exact if_neg (by simp)
    refine Spec.seq (truncIndirect_spec 128 0 rfl (fun l => ?_)
      (h.owned.congr hcut fun _ _ => Iff.rfl)) ?_
    · rw [hself, slotAddr_entry hind]
    · rintro - s₁ ⟨howned, hsame, hmeta⟩
      have hlast : cutEntries i 128 (ownerAddr sb.ninodes s.disk (Function.update ino i ip))
          (i, .addr 12) = ip.addrs 12 := hself (.addr 12)
      have hclear : ∀ o, ownerAddr sb.ninodes s.disk (Function.update ino i (ip.setAddr 12 0)) o = _ :=
        ownerAddr_clear_indirect hi htype
      obtain ⟨s₂, hrun, howned', hsame', hmeta'⟩ := bfree_owned howned (by rwa [hlast])
        ((hclear _).trans (if_pos rfl)) fun o ho => (hclear o).trans (if_neg ho)
      rw [hlast] at hrun
      refine Spec.seq_ok hrun (Spec.pure ⟨rfl, ⟨howned'.congr (fun o => ownerAddr_congr fun hj => ?_)
        fun _ _ => Iff.rfl, fun c hc => ?_⟩, hsame.trans hsame'⟩)
      · exact hsame.trans hsame' _ fun hb => hv.bitmap_not_data hb (howned'.data _ hj)
      · exact hmeta' c hc (hmeta c hc (h.metadata c hc))

/-- Storing an inode, seen on the inodes of the disk. -/
theorem iupdate_spec {Err : Panic → Prop} (hv : sb.Valid) {s : Store}
    (h : BlocksOwned sb s.disk ino) (hi : i < sb.ninodes) (hfits : ip.Fits) :
    Spec Err (iupdate sb i ip) s fun _ s' => BlocksOwned sb s'.disk ino ∧
      (∀ o, ownerAddr sb.ninodes s'.disk ino o = ownerAddr sb.ninodes s.disk ino o) ∧
      dinode sb s'.disk = Function.update (dinode sb s.disk) i ip ∧
      (∀ c, sb.Data c → s'.disk c = s.disk c) ∧ freeBlocks sb s'.disk = freeBlocks sb s.disk := by
  obtain ⟨howned, howner, hfree⟩ := h.putInode hv hi ip
  refine Spec.of_ok rfl ⟨howned, howner, dinode_putInode hfits,
    fun c hc => Function.update_of_ne (fun heq => ?_) .., hfree⟩
  have hmeta := hv.iblock_lt hi
  exact absurd hc.1 (by omega)

/-- The inodes of the disk lie in the metadata. -/
theorem SameMeta.dinode (h : SameMeta sb disk disk') (hv : sb.Valid)
    (hi : i < sb.ninodes) : dinode sb disk' i = Fs.dinode sb disk i :=
  dinode_congr (h _ (hv.iblock_lt hi) (hv.iblock_not_bitmap hi))

/-- `itrunc` leaves an inode without blocks, in memory and on the disk. -/
theorem itrunc_spec (hv : sb.Valid) {s : Store}
    (h : BlocksOwned sb s.disk (Function.update ino i ip)) (hi : i < sb.ninodes)
    (htype : ip.type ≠ 0) (hfits : ip.Fits) :
    Spec (fun _ => False) (itrunc sb i ip) s fun ip' s' =>
      ip' = { ip with size := 0, addrs := fun _ => 0 } ∧
      BlocksOwned sb s'.disk (Function.update ino i ip') ∧
      (∀ o : Nat × Slot, o.1 ≠ i →
        ownerAddr sb.ninodes s'.disk ino o = ownerAddr sb.ninodes s.disk ino o) ∧
      (∀ j < sb.ninodes, dinode sb s'.disk j = Function.update (dinode sb s.disk) i ip' j) ∧
      ∀ c, sb.Data c → s'.disk c = s.disk c := by
  unfold itrunc
  refine Spec.seq (truncDirect_spec hv h hi htype hfits 12 0 (by decide)) ?_
  rintro ip₁ s₁ ⟨howned, hsame, hfits₁, hfields, haddrs⟩
  have htype₁ : ip₁.type ≠ 0 := by rwa [hfields]
  refine Spec.seq (truncLast_spec hv howned hi htype₁) ?_
  rintro ip₂ s₂ ⟨rfl, howned₂, hsame₂⟩
  have hzero : Function.update ip₁.addrs 12 0 = fun _ => 0 := by
    funext k
    by_cases hk : k = 12
    · rw [hk, Function.update_self]
    · rw [Function.update_of_ne hk]
      by_cases hlt : k < 12
      · rw [haddrs, if_pos (by omega)]
      · exact hfits₁.thirteen k (by omega)
  rw [hzero] at howned₂ ⊢
  have howned₃ : BlocksOwned sb s₂.disk
      (Function.update ino i { ip₁ with size := 0, addrs := fun _ => 0 }) :=
    howned₂.sameAddrs rfl rfl
  have hip : { ip₁ with size := 0, addrs := fun _ => 0 }
      = { ip with size := 0, addrs := fun _ => 0 } := by rw [hfields]
  rw [hip] at howned₃ ⊢
  have hfits₃ : Dinode.Fits { ip with size := 0, addrs := fun _ => 0 } :=
    ⟨hfits.type, hfits.major, hfits.minor, hfits.nlink, Nat.two_pow_pos 32,
      fun _ => Nat.two_pow_pos 32, fun _ _ => rfl⟩
  refine Spec.seq (iupdate_spec hv howned₃ hi hfits₃) ?_
  rintro - s₃ ⟨howned₄, howner, hdinode, hdata, -⟩
  refine Spec.pure ⟨rfl, howned₄, fun o ho => ?_, fun j hj => ?_, fun c hc => ?_⟩
  · have hown := h.owned.data (o.1, .addr 12)
    have hlast := howner o
    rw [ownerAddr_of_ne (o := (o.1, .addr 12)) ho] at hown
    rw [ownerAddr_of_ne ho, ownerAddr_of_ne ho] at hlast
    rw [hlast]
    exact ownerAddr_congr fun hne =>
      hsame.trans hsame₂ _ fun hb => hv.bitmap_not_data hb (hown hne)
  · rw [hdinode, Function.update_apply, Function.update_apply]
    exact if_congr Iff.rfl rfl ((hsame.trans hsame₂).sameMeta.dinode hv hj)
  · rw [hdata c hc]
    exact hsame.trans hsame₂ c fun hb => hv.bitmap_not_data hb hc

end Xv6Sharing.Fs
