/-
Xv6Sharing.Fs.DirTheorems — directories as tables of names (kernel/fs.c).

A directory is a file of entries of sixteen bytes. `entries` reads it as a table of
slots whose keys are names cut at the NUL and at DIRSIZ bytes; `namecmp` compares such
keys and `strncpy` stores them. In these terms `dirlookup` finds the first slot with a
key, `dirlink` puts a binding into the first free slot or behind the last one, and
what `sys_unlink` writes frees a slot.
-/
import Xv6Sharing.Fs.Directory
import Xv6Sharing.Fs.FileBytes
import Xv6Sharing.Fs.SharedFile
import Xv6Sharing.Lib.CString
import Xv6Sharing.Lib.SlotTable

namespace Xv6Sharing.Fs

open Lib

/-! ## Names -/

/-- A name as directories see it: what stands before the NUL in the first fourteen bytes. -/
def key (s : Nat → UInt8) : List UInt8 := cut ((List.range 14).map s)

theorem key_congr {s t : Nat → UInt8} (h : ∀ x < 14, s x = t x) : key s = key t := by
  rw [key, key, List.map_congr_left fun x hx => h x (List.mem_range.mp hx)]

theorem strncmp_eq_zero (p q : Nat → UInt8) (n x : Nat) : strncmp p q n x = 0 ↔
    cut ((List.range' x n).map p) = cut ((List.range' x n).map q) := by
  induction n generalizing x with
  | zero => exact iff_of_true rfl rfl
  | succ n ih =>
    rw [strncmp, List.range'_succ, List.map_cons, List.map_cons]
    by_cases hp : p x = 0
    · rw [if_neg (fun h => h.1 hp), hp, cut_zero]
      by_cases hq : q x = 0
      · rw [hq, cut_zero]
        exact iff_of_true rfl rfl
      · rw [cut_cons hq]
        refine iff_of_false (fun hz => hq ?_) nofun
        have hzero : (q x).toNat = 0 := by
          have hnat : ((0 : UInt8).toNat : Int) = 0 := rfl
          omega
        exact UInt8.toNat_inj.mp hzero
    · rw [cut_cons hp]
      by_cases heq : p x = q x
      · rw [if_pos ⟨hp, heq⟩, ih, ← heq, cut_cons hp, List.cons_inj_right]
      · rw [if_neg (fun h => heq h.2)]
        refine iff_of_false (fun hz => heq (UInt8.toNat_inj.mp (by omega))) fun hcut => ?_
        by_cases hq : q x = 0
        · rw [hq, cut_zero] at hcut
          cases hcut
        · rw [cut_cons hq] at hcut
          exact heq (List.cons.inj hcut).1

theorem namecmp_eq_zero (s t : Nat → UInt8) : namecmp s t = 0 ↔ key s = key t := by
  rw [namecmp, strncmp_eq_zero, key, key, List.range_eq_range']

theorem strncpy_spec (t : Nat → UInt8) (n x : Nat) : (Call.strncpy t n x).length = n ∧
    cut (Call.strncpy t n x) = cut ((List.range' x n).map t) := by
  induction n generalizing x with
  | zero => exact ⟨rfl, rfl⟩
  | succ n ih =>
    rw [Call.strncpy, List.range'_succ, List.map_cons]
    by_cases ht : t x = 0
    · rw [if_neg (not_not.mpr ht), ht, cut_zero]
      exact ⟨List.length_replicate, rfl⟩
    · rw [if_pos ht, List.length_cons, (ih (x + 1)).1, cut_cons ht, cut_cons ht, (ih (x + 1)).2]
      exact ⟨rfl, rfl⟩

/-! ## Entries -/

/-- Entry `k` of a directory with the bytes `f`. -/
def entryAt (f : Nat → UInt8) (k : Nat) : Option (List UInt8 × Nat) :=
  if (f (16 * k)).toNat + 256 * (f (16 * k + 1)).toNat = 0 then none
  else some (key fun x => f (16 * k + (2 + x)),
    (f (16 * k)).toNat + 256 * (f (16 * k + 1)).toNat)

/-- The `struct dirent` there. -/
def direntAt (f : Nat → UInt8) (k : Nat) : Dirent :=
  getDirent ((List.range 16).map fun x => f (16 * k + x))

theorem entryAt_eq (f : Nat → UInt8) (k : Nat) : entryAt f k
    = if (direntAt f k).inum = 0 then none
      else some (key (direntAt f k).name, (direntAt f k).inum) := by
  have hget : ∀ x < 16, ((List.range 16).map fun x => f (16 * k + x)).getD x 0 = f (16 * k + x) := by
    intro x hx
    rw [List.getD_eq_getElem _ 0 (by simpa using hx), List.getElem_map, List.getElem_range]
  have hinum : (direntAt f k).inum = (f (16 * k)).toNat + 256 * (f (16 * k + 1)).toNat := by
    rw [direntAt, getDirent, hget 0 (by decide), hget 1 (by decide), Nat.add_zero]
  have hname : key (direntAt f k).name = key fun x => f (16 * k + (2 + x)) :=
    key_congr fun x hx => hget (2 + x) (by omega)
  rw [entryAt, hinum, hname]

/-- The entries of a directory. -/
def entries (disk : Disk) (ip : Dinode) : SlotTable (List UInt8) Nat :=
  (List.range (ip.size / 16)).map (entryAt (fileByte disk ip))

theorem entryAt_congr {f g : Nat → UInt8} {k : Nat} (h : ∀ x < 16, f (16 * k + x) = g (16 * k + x)) :
    entryAt f k = entryAt g k := by
  have h₀ := h 0 (by decide)
  rw [Nat.add_zero] at h₀
  have hname : (key fun x => f (16 * k + (2 + x))) = key fun x => g (16 * k + (2 + x)) :=
    key_congr fun x hx => h (2 + x) (by omega)
  rw [entryAt, entryAt, h₀, h 1 (by decide), hname]

theorem entryAt_zero {f : Nat → UInt8} {k : Nat} (h : ∀ x < 16, f (16 * k + x) = 0) :
    entryAt f k = none := by
  have h₀ := h 0 (by decide)
  rw [Nat.add_zero] at h₀
  rw [entryAt, h₀, h 1 (by decide), if_pos (by decide)]

theorem entryAt_put {f : Nat → UInt8} {k inum : Nat} {name : List UInt8} (hpos : 0 < inum)
    (hsmall : inum < 2 ^ 16) (h : ∀ x < 16, f (16 * k + x)
      = (Call.putDirent inum (Call.strncpy (cstr name) 14 0)).getD x 0) :
    entryAt f k = some (key (cstr name), inum) := by
  obtain ⟨hlen, hcut⟩ := strncpy_spec (cstr name) 14 0
  have h₀ : f (16 * k) = UInt8.ofNat inum := h 0 (by decide)
  have h₁ : f (16 * k + 1) = UInt8.ofNat (inum / 256) := h 1 (by decide)
  have hinum : (f (16 * k)).toNat + 256 * (f (16 * k + 1)).toNat = inum := by
    rw [h₀, h₁, UInt8.toNat_ofNat', UInt8.toNat_ofNat']
    omega
  have hname : (key fun x => f (16 * k + (2 + x))) = key (cstr name) := by
    have hbytes : (List.range 14).map (fun x => f (16 * k + (2 + x)))
        = Call.strncpy (cstr name) 14 0 := by
      refine List.ext_getElem ?_ fun x hx hx' => ?_
      · rw [List.length_map, List.length_range, hlen]
      · rw [List.getElem_map, List.getElem_range, h (2 + x) (by rw [hlen] at hx'; omega), Nat.add_comm,
          Call.putDirent, List.getD_cons_succ, List.getD_cons_succ]
        exact List.getD_eq_getElem _ 0 hx'
    rw [key, hbytes, hcut, ← List.range_eq_range']
    rfl
  rw [entryAt, hinum, hname, if_neg hpos.ne']

theorem length_entries {disk : Disk} {ip : Dinode} : (entries disk ip).length = ip.size / 16 := by
  rw [entries, List.length_map, List.length_range]

theorem getElem?_entries {disk : Disk} {ip : Dinode} {k : Nat} (hk : k < ip.size / 16) :
    (entries disk ip)[k]? = some (entryAt (fileByte disk ip) k) := by
  rw [entries, List.getElem?_map, List.getElem?_range hk, Option.map_some]

theorem drop_entries {disk : Disk} {ip : Dinode} {k : Nat} (hk : k < ip.size / 16) :
    (entries disk ip).drop k = entryAt (fileByte disk ip) k :: (entries disk ip).drop (k + 1) := by
  have hlt : k < (entries disk ip).length := length_entries ▸ hk
  have hget : (entries disk ip)[k]? = _ := getElem?_entries hk
  rw [List.getElem?_eq_getElem hlt] at hget
  rw [List.drop_eq_getElem_cons hlt, Option.some.inj hget]

theorem drop_entries_of_le {disk : Disk} {ip : Dinode} {k : Nat} (hk : ip.size / 16 ≤ k) :
    (entries disk ip).drop k = [] := List.drop_eq_nil_of_le (length_entries.trans_le hk)

/-- Sixteen bytes stored in the place of an entry, or behind the last one. -/
theorem entries_stored {disk disk' : Disk} {ip ip' : Dinode} {src : List UInt8} {k : Nat}
    (hwhole : ip.size % 16 = 0) (hlen : src.length = 16) (hk : 16 * k ≤ ip.size)
    (hsize : ip'.size = max ip.size (16 * k + src.length))
    (hstored : Stored disk ip src (16 * k) ip.size ip' disk') :
    entries disk' ip' = if k < (entries disk ip).length
      then (entries disk ip).set k (entryAt (fileByte disk' ip') k)
      else entries disk ip ++ [entryAt (fileByte disk' ip') k] := by
  have hother : ∀ j < ip.size / 16, j ≠ k →
      entryAt (fileByte disk' ip') j = entryAt (fileByte disk ip) j := by
    intro j hj hjk
    refine entryAt_congr fun x hx => ?_
    rw [hstored _ (by omega), if_neg (by omega)]
  rw [length_entries]
  by_cases hin : k < ip.size / 16
  · have hnum : ip'.size / 16 = ip.size / 16 := by omega
    rw [if_pos hin]
    refine List.ext_getElem? fun j => ?_
    by_cases hj : j < ip.size / 16
    · rw [getElem?_entries (hnum ▸ hj), List.getElem?_set, length_entries, getElem?_entries hj]
      by_cases hjk : k = j
      · rw [if_pos hjk, if_pos hin, hjk]
      · rw [if_neg hjk, hother j hj (Ne.symm hjk)]
    · rw [List.getElem?_eq_none (by rw [length_entries]; omega),
        List.getElem?_eq_none (by rw [List.length_set, length_entries]; omega)]
  · have hnum : ip'.size / 16 = ip.size / 16 + 1 := by omega
    have hlast : ip.size / 16 = k := by omega
    rw [if_neg hin, entries, hnum, List.range_succ, List.map_append, List.map_singleton, hlast, entries,
      hlast, List.map_congr_left fun j hj => hother j (hlast ▸ List.mem_range.mp hj)
        (Nat.ne_of_lt (List.mem_range.mp hj))]

theorem SameFile.entries {disk disk' : Disk} {ip ip' : Dinode} (h : SameFile disk ip disk' ip') :
    entries disk' ip' = Fs.entries disk ip := by
  rw [Fs.entries, Fs.entries, h.size]
  refine List.map_congr_left fun k hk => entryAt_congr fun x hx => h.bytes _ ?_
  have hlt := List.mem_range.mp hk
  omega

/-! ## Directories -/

/-- The inode is a directory of whole entries, none of which names an inode outside the table. -/
structure DirOk (sb : Superblock) (disk : Disk) (dp : Nat) : Prop where
  inTable : dp < sb.ninodes
  type : (dinode sb disk dp).type = T_DIR
  whole : (dinode sb disk dp).size % 16 = 0
  fits : (dinode sb disk dp).size ≤ 140 * 512
  inums : ∀ e ∈ (entries disk (dinode sb disk dp)).reduceOption, e.2 < sb.ninodes

section

variable {sb : Superblock} {devsw : Devsw} {fs : FileSys} {dp : Nat}

/-- The directory is in the cache, and valid. -/
structure Loaded (sb : Superblock) (fs : FileSys) (i : Nat) : Prop where
  ref : 0 < fs.ref i
  copy : fs.copy i = some (dinode sb fs.store.disk i)

theorem DirOk.type_ne (h : DirOk sb fs.store.disk dp) :
    (dinode sb fs.store.disk dp).type ≠ 0 ∧ (dinode sb fs.store.disk dp).type ≠ T_DEV := by
  rw [h.type]
  decide

theorem DirOk.same {disk disk' : Disk} (hd : DirOk sb disk dp)
    (htype : (dinode sb disk' dp).type = (dinode sb disk dp).type)
    (hsame : SameFile disk (dinode sb disk dp) disk' (dinode sb disk' dp)) : DirOk sb disk' dp := by
  refine ⟨hd.inTable, htype.trans hd.type, ?_, ?_, ?_⟩
  · rw [hsame.size]
    exact hd.whole
  · rw [hsame.size]
    exact hd.fits
  · rw [hsame.entries]
    exact hd.inums

theorem DirOk.lookup {disk : Disk} (hd : DirOk sb disk dp) {k : List UInt8} {j inum : Nat}
    (hfind : SlotTable.find k (entries disk (dinode sb disk dp)) = some (j, inum)) :
    inum < sb.ninodes :=
  hd.inums (k, inum) (List.reduceOption_mem_iff.mpr
    (List.mem_of_getElem? (SlotTable.getElem?_of_find hfind)))

theorem Loaded.of_cached (h : WrittenThrough sb fs) {i : Nat} (href : 0 < fs.ref i)
    (hcopy : (fs.copy i).isSome) : Loaded sb fs i := by
  obtain ⟨ip, hip⟩ := Option.isSome_iff_exists.mp hcopy
  obtain ⟨rfl, -⟩ := h.cached i href ip hip
  exact ⟨href, hip⟩

/-- The cache after `ilock`. -/
def FileSys.load (sb : Superblock) (fs : FileSys) (i : Nat) : FileSys :=
  { fs with copy := Function.update fs.copy i (some (dinode sb fs.store.disk i)) }

theorem ilock_eq (h : WrittenThrough sb fs) {i : Nat} (href : 0 < fs.ref i) :
    ilock sb i fs = if (dinode sb fs.store.disk i).type = 0 then .error .noType
      else .ok ((), fs.load sb i) := by
  rw [ilock, if_neg (by omega)]
  cases hcopy : fs.copy i with
  | none => rfl
  | some ip =>
    obtain ⟨rfl, htype⟩ := h.cached i href ip hcopy
    dsimp only
    rw [if_neg htype, FileSys.load, ← hcopy, Function.update_eq_self]

theorem WrittenThrough.load (h : WrittenThrough sb fs) {i : Nat}
    (htype : (dinode sb fs.store.disk i).type ≠ 0) : WrittenThrough sb (fs.load sb i) := by
  refine ⟨h.disk, h.inTable, fun j hj ip hip => ?_⟩
  by_cases hji : j = i
  · subst hji
    have hload : Function.update fs.copy j (some (dinode sb fs.store.disk j)) j = some ip := hip
    rw [Function.update_self] at hload
    cases hload
    exact ⟨rfl, htype⟩
  · exact h.cached j hj ip ((Function.update_of_ne hji ..).symm.trans hip)

theorem Loaded.load {i : Nat} (href : 0 < fs.ref i) : Loaded sb (fs.load sb i) i :=
  ⟨href, Function.update_self ..⟩

theorem fields_run (hl : Loaded sb fs dp) :
    fields dp fs = .ok (dinode sb fs.store.disk dp, fs) := by
  rw [fields, hl.copy]
  rfl

theorem readEntry_run (h : WrittenThrough sb fs) (hd : DirOk sb fs.store.disk dp)
    (hl : Loaded sb fs dp) {k : Nat} (hk : k < (dinode sb fs.store.disk dp).size / 16) :
    readEntry sb devsw dp (16 * k) fs
      = .ok (some (direntAt (fileByte fs.store.disk (dinode sb fs.store.disk dp)) k), fs) := by
  obtain ⟨htype, hdev⟩ := hd.type_ne
  have hbytes : readResult fs.store.disk (dinode sb fs.store.disk dp) (16 * k) 16
      = some ((List.range 16).map fun x =>
        fileByte fs.store.disk (dinode sb fs.store.disk dp) (16 * k + x)) := by
    have hfits := hd.fits
    rw [readResult, if_neg (by omega), contents_slice (by omega)]
  have hread : readi sb devsw (dinode sb fs.store.disk dp) (16 * k) 16 fs.store = _ :=
    readi_run h.disk hd.inTable htype hdev hd.fits (by decide)
  rw [hbytes] at hread
  have hin : onInode dp (fun ip => readi sb devsw ip (16 * k) 16) fs
      = .ok (some ((List.range 16).map fun x =>
        fileByte fs.store.disk (dinode sb fs.store.disk dp) (16 * k + x)), fs) := by
    simp only [onInode, hl.copy, Option.getD_some, hread]
    rw [← hl.copy, Function.update_eq_self]
  rw [readEntry, bind_ok hin]
  rfl

/-- What the loop of `dirlookup` does with the first slot that it finds. -/
def reported (sb : Superblock) (r : Option (Nat × Nat)) : KernM (Option (Nat × Nat)) :=
  match r with
  | none => return none
  | some (k, inum) => do
      iget sb inum
      return some (inum, 16 * k)

theorem reported_some (k inum : Nat) : reported sb (some (k, inum)) fs
    = if CanGet sb fs inum then .ok (some (inum, 16 * k), fs.iget inum) else .error .noEntries := by
  by_cases hget : CanGet sb fs inum
  · have higet : iget sb inum fs = .ok ((), fs.iget inum) := if_pos hget
    rw [if_pos hget, reported, bind_ok higet]
    rfl
  · have higet : iget sb inum fs = .error .noEntries := if_neg hget
    rw [if_neg hget]
    exact bind_error higet

theorem dirlookupFrom_run (h : WrittenThrough sb fs) (hd : DirOk sb fs.store.disk dp)
    (hl : Loaded sb fs dp) (name : List UInt8) {k fuel : Nat}
    (hfuel : k + fuel = (dinode sb fs.store.disk dp).size / 16 + 1) :
    dirlookupFrom sb devsw dp name fuel (16 * k) fs
      = reported sb ((SlotTable.find (key (cstr name))
          ((entries fs.store.disk (dinode sb fs.store.disk dp)).drop k)).map
            fun r => (k + r.1, r.2)) fs := by
  have hwhole := hd.whole
  induction fuel generalizing k with
  | zero =>
    rw [drop_entries_of_le (by omega)]
    rfl
  | succ fuel ih =>
    rw [dirlookupFrom, bind_ok (fields_run hl)]
    by_cases hk : k < (dinode sb fs.store.disk dp).size / 16
    · rw [if_pos (by omega), bind_ok (readEntry_run h hd hl hk), drop_entries hk, entryAt_eq]
      have hnext := ih (by omega : k + 1 + fuel = _)
      have hoff : 16 * (k + 1) = 16 * k + 16 := by omega
      rw [hoff] at hnext
      -- the slots behind this one
      have hrest : ∀ r : Option (Nat × Nat), (r.map fun r => (r.1 + 1, r.2)).map
          (fun r => (k + r.1, r.2)) = r.map fun r => (k + 1 + r.1, r.2) := by
        intro r
        rw [Option.map_map]
        refine congrArg (Option.map · r) (funext fun r => ?_)
        rw [Function.comp_apply, Nat.add_assoc, Nat.add_comm 1]
      generalize direntAt (fileByte fs.store.disk (dinode sb fs.store.disk dp)) k = de
      dsimp only
      by_cases hfree : de.inum = 0
      · rw [if_pos hfree, if_pos hfree, hnext, SlotTable.find, hrest]
      · rw [if_neg hfree, if_neg hfree, SlotTable.find]
        by_cases hname : namecmp (cstr name) de.name = 0
        · rw [if_pos hname, if_pos ((namecmp_eq_zero ..).mp hname).symm]
          rfl
        · rw [if_neg hname, if_neg fun heq => hname ((namecmp_eq_zero ..).mpr heq.symm), hnext, hrest]
    · rw [if_neg (by omega), drop_entries_of_le (by omega)]
      rfl

/-- `dirlookup` reports the first slot with the name. -/
theorem dirlookup_run (h : WrittenThrough sb fs) (hd : DirOk sb fs.store.disk dp)
    (hl : Loaded sb fs dp) (name : List UInt8) :
    dirlookup sb devsw dp name fs = reported sb (SlotTable.find (key (cstr name))
      (entries fs.store.disk (dinode sb fs.store.disk dp))) fs := by
  have hloop : dirlookupFrom sb devsw dp name _ (16 * 0) fs = _ :=
    dirlookupFrom_run h hd hl name (Nat.zero_add _)
  have hid : (fun r : Nat × Nat => (0 + r.1, r.2)) = id := by
    funext r
    rw [Nat.zero_add]
    rfl
  rw [List.drop_zero, hid, Option.map_id] at hloop
  rw [dirlookup, bind_ok (fields_run hl), if_neg (not_not.mpr hd.type)]
  exact hloop

/-! ## Writing entries -/

/-- Sixteen bytes have been stored as entry `k` of a directory. -/
structure EntryWritten (sb : Superblock) (fs : FileSys) (dp k : Nat) (src : List UInt8)
    (fs' : FileSys) : Prop where
  through : WrittenThrough sb fs'
  loaded : Loaded sb fs' dp
  ref : fs'.ref = fs.ref
  copies : ∀ j, j ≠ dp → fs'.copy j = fs.copy j
  size : (dinode sb fs'.store.disk dp).size = max (dinode sb fs.store.disk dp).size (16 * k + 16)
  fields : dinode sb fs'.store.disk dp = { dinode sb fs.store.disk dp with
    size := (dinode sb fs'.store.disk dp).size, addrs := (dinode sb fs'.store.disk dp).addrs }
  inodes : ∀ j < sb.ninodes, j ≠ dp → dinode sb fs'.store.disk j = dinode sb fs.store.disk j
  others : OthersKept sb dp fs.store.disk fs'.store.disk
  table : entries fs'.store.disk (dinode sb fs'.store.disk dp)
    = if k < (entries fs.store.disk (dinode sb fs.store.disk dp)).length
      then (entries fs.store.disk (dinode sb fs.store.disk dp)).set k
        (entryAt (fileByte fs'.store.disk (dinode sb fs'.store.disk dp)) k)
      else entries fs.store.disk (dinode sb fs.store.disk dp) ++
        [entryAt (fileByte fs'.store.disk (dinode sb fs'.store.disk dp)) k]
  bytes : ∀ x < 16, fileByte fs'.store.disk (dinode sb fs'.store.disk dp) (16 * k + x) = src.getD x 0
  room : freeBlocks sb fs'.store.disk + blocksFor (dinode sb fs'.store.disk dp).size
    = freeBlocks sb fs.store.disk + blocksFor (dinode sb fs.store.disk dp).size

/-- There are blocks for an entry `k` of the directory. -/
def EntryRoom (sb : Superblock) (disk : Disk) (dp k : Nat) : Prop :=
  blocksFor (max (dinode sb disk dp).size (16 * k + 16))
    ≤ freeBlocks sb disk + blocksFor (dinode sb disk dp).size

theorem writeEntry_spec {Err : Panic → Prop} (hv : sb.Valid) (h : WrittenThrough sb fs)
    (hd : DirOk sb fs.store.disk dp) (hl : Loaded sb fs dp) {src : List UInt8} {k : Nat}
    (hlen : src.length = 16) (hk : 16 * k ≤ (dinode sb fs.store.disk dp).size)
    (hfull : 16 * k + 16 ≤ 140 * 512 → ¬ EntryRoom sb fs.store.disk dp k → Err .outOfBlocks) :
    Spec Err (onInode dp fun ip => writei sb devsw dp ip src (16 * k)) fs fun r fs' =>
      if 16 * k + 16 ≤ 140 * 512 then r = 16 ∧ EntryWritten sb fs dp k src fs' else r = -1 := by
  obtain ⟨htype, hdev⟩ := hd.type_ne
  have hwritei : Spec Err (writei sb devsw dp (dinode sb fs.store.disk dp) src (16 * k)) fs.store _ :=
    writei_spec hv h.disk hd.inTable htype (by omega) (16 * k) fun _ hfit hfew =>
      hfull (hlen ▸ hfit) (not_le.mpr (hlen ▸ hfew))
  refine (SharedFile.onInode_spec hl.copy hwritei).mono ?_
  rintro r fs' ⟨ip', s, ⟨hw, -⟩, rfl⟩
  by_cases hfit : 16 * k + 16 ≤ 140 * 512
  · rw [if_pos hfit]
    obtain ⟨hr, hsize, hstored⟩ := hw.bytes hdev hk (hlen.symm ▸ hfit)
    have hself : dinode sb s.disk dp = ip' := by rw [hw.inodes _ hd.inTable, Function.update_self]
    have hr : r = src.length := hr
    have hsize : ip'.size = max (dinode sb fs.store.disk dp).size (16 * k + src.length) := hsize
    refine ⟨by rw [hr, hlen]; rfl, ⟨h.replace hd.inTable (hw.type ▸ htype) hw.consistent hw.inodes,
      ⟨hl.ref, ?_⟩, rfl, fun j hj => Function.update_of_ne hj .., ?_, ?_, fun j hj hne => ?_, hw.others,
      ?_, fun x hx => ?_, ?_⟩⟩
    · rw [hself]
      exact Function.update_self ..
    · rw [hself, hsize, hlen]
    · rw [hself]
      exact hw.fields
    · exact (hw.inodes j hj).trans (Function.update_of_ne hne ..)
    · rw [hself]
      exact entries_stored hd.whole hlen hk hsize hstored
    · rw [hself]
      refine (hstored _ (by omega)).trans ?_
      rw [if_pos (by omega), Nat.add_sub_cancel_left]
    · rw [hself]
      exact hw.room hdev
  · rw [if_neg hfit]
    exact congrArg Prod.snd (hw.refused hdev fun hin => hfit (hlen ▸ hin.2))

theorem EntryWritten.dirOk {k : Nat} {src : List UInt8} {fs' : FileSys}
    (hw : EntryWritten sb fs dp k src fs') (hd : DirOk sb fs.store.disk dp)
    (hk : 16 * k + 16 ≤ 140 * 512)
    (hnew : ∀ e ∈ entryAt (fileByte fs'.store.disk (dinode sb fs'.store.disk dp)) k,
      e.2 < sb.ninodes) : DirOk sb fs'.store.disk dp := by
  have hsize := hw.size
  have hwhole := hd.whole
  have hfits := hd.fits
  refine ⟨hd.inTable, ?_, by omega, by omega, fun e he => ?_⟩
  · rw [hw.fields]
    exact hd.type
  · have hmem : some e ∈ entries fs'.store.disk (dinode sb fs'.store.disk dp) :=
      List.reduceOption_mem_iff.mp he
    have hcases : some e = entryAt (fileByte fs'.store.disk (dinode sb fs'.store.disk dp)) k ∨
        some e ∈ entries fs.store.disk (dinode sb fs.store.disk dp) := by
      rw [hw.table] at hmem
      split_ifs at hmem
      · exact (List.mem_or_eq_of_mem_set hmem).symm
      · rcases List.mem_append.mp hmem with hold | hlast
        · exact .inr hold
        · exact .inl (List.mem_singleton.mp hlast)
    rcases hcases with hself | hold
    · exact hnew e hself.symm
    · exact hd.inums e (List.reduceOption_mem_iff.mpr hold)

/-- The cache after an inode has been taken and given back. -/
def FileSys.glanced (fs : FileSys) (i : Nat) : FileSys :=
  { fs with copy := if fs.ref i = 0 then Function.update fs.copy i none else fs.copy }

theorem iput_iget (i : Nat) : iput sb i (fs.iget i) = .ok ((), fs.glanced i) := by
  have href : (fs.iget i).ref i = fs.ref i + 1 := Function.update_self ..
  have hback : Function.update (fs.iget i).ref i ((fs.iget i).ref i - 1) = fs.ref := by
    rw [href, Nat.add_sub_cancel]
    exact (Function.update_idem ..).trans (Function.update_eq_self ..)
  have hkept : ({ fs.iget i with ref := fs.ref } : FileSys) = fs.glanced i := rfl
  rw [iput, hback]
  cases hcopy : (fs.iget i).copy i with
  | none => rw [← hkept]
  | some ip =>
    -- an inode that was not in use is not valid
    have hused : fs.ref i ≠ 0 := by
      intro hzero
      rw [FileSys.iget, if_pos hzero] at hcopy
      dsimp only at hcopy
      rw [Function.update_self] at hcopy
      cases hcopy
    dsimp only
    rw [if_neg (by omega), ← hkept]

theorem WrittenThrough.glanced (h : WrittenThrough sb fs) (i : Nat) :
    WrittenThrough sb (fs.glanced i) := by
  refine ⟨h.disk, h.inTable, fun j hj ip hip => h.cached j hj ip ?_⟩
  unfold FileSys.glanced at hip
  grind [Function.update_apply]

theorem Loaded.glanced (hl : Loaded sb fs dp) (i : Nat) : Loaded sb (fs.glanced i) dp := by
  refine ⟨hl.ref, ?_⟩
  have href := hl.ref
  have hcopy := hl.copy
  show (if fs.ref i = 0 then Function.update fs.copy i none else fs.copy) dp = _
  by_cases hzero : fs.ref i = 0
  · rw [if_pos hzero, Function.update_of_ne (by rintro rfl; omega)]
    exact hcopy
  · rw [if_neg hzero]
    exact hcopy

/-- An entry that `dirlink` stored in the first free slot. -/
theorem EntryWritten.put {k inum : Nat} {name : List UInt8} {fs' : FileSys}
    (hw : EntryWritten sb fs dp k (Call.putDirent inum (Call.strncpy (cstr name) 14 0)) fs')
    (hk : k = (entries fs.store.disk (dinode sb fs.store.disk dp)).firstFree)
    (hpos : 0 < inum) (hsmall : inum < 2 ^ 16) :
    entries fs'.store.disk (dinode sb fs'.store.disk dp)
      = (entries fs.store.disk (dinode sb fs.store.disk dp)).put (key (cstr name)) inum := by
  rw [hw.table, entryAt_put hpos hsmall hw.bytes]
  by_cases hlt : k < (entries fs.store.disk (dinode sb fs.store.disk dp)).length
  · rw [if_pos hlt, SlotTable.put_of_free (hk ▸ hlt), ← hk]
  · have hend : k = (entries fs.store.disk (dinode sb fs.store.disk dp)).length :=
      le_antisymm (hk.trans_le SlotTable.firstFree_le) (not_lt.mp hlt)
    rw [if_neg hlt, SlotTable.put_of_full (hk.symm.trans hend)]

theorem EntryWritten.cleared {k : Nat} {fs' : FileSys}
    (hw : EntryWritten sb fs dp k (List.replicate 16 0) fs') :
    entryAt (fileByte fs'.store.disk (dinode sb fs'.store.disk dp)) k = none := by
  refine entryAt_zero fun x hx => ?_
  rw [hw.bytes x hx, List.getD_eq_getElem _ 0 (by simpa using hx), List.getElem_replicate]

theorem EntryWritten.clear {k : Nat} {fs' : FileSys}
    (hw : EntryWritten sb fs dp k (List.replicate 16 0) fs')
    (hk : k < (entries fs.store.disk (dinode sb fs.store.disk dp)).length) :
    entries fs'.store.disk (dinode sb fs'.store.disk dp)
      = (entries fs.store.disk (dinode sb fs.store.disk dp)).set k none := by
  rw [hw.table, if_pos hk, hw.cleared]

end

/-! ## dirlink -/

namespace Call

variable {sb : Superblock} {devsw : Devsw} {c : Caller} {dp : Nat}

theorem onFs_ok {α : Type} {m : KernM α} {a : α} {fs' : FileSys}
    (h : m c.fs = .ok (a, fs')) : onFs m c = .ok (a, { c with fs := fs' }) := by
  simp only [onFs, h]

theorem onFs_error {α : Type} {m : KernM α} {e : Panic} (h : m c.fs = .error e) :
    onFs m c = .error (.panic e) := by
  simp only [onFs, h]

theorem onFs_spec {α : Type} {Err : Stop → Prop} {m : KernM α} {Q : α → FileSys → Prop}
    (h : Spec (fun p => Err (.panic p)) m c.fs Q) :
    Spec Err (onFs m) c fun a c' => Q a c'.fs ∧ c'.locked = c.locked := by
  cases hrun : m c.fs with
  | error e => exact Spec.of_error (onFs_error hrun) (h.error hrun)
  | ok p => exact Spec.of_ok (onFs_ok hrun) ⟨h.post hrun, rfl⟩

theorem ilock_eq (h : WrittenThrough sb c.fs) {i : Nat} (href : 0 < c.fs.ref i)
    (hfree : i ∉ c.locked) : ilock sb i c
      = if (dinode sb c.fs.store.disk i).type = 0 then .error (.panic .noType)
        else .ok ((), ⟨c.fs.load sb i, i :: c.locked⟩) := by
  have hacquire : acquiresleep i c = .ok ((), ⟨c.fs, i :: c.locked⟩) := if_neg hfree
  have hload : Fs.ilock sb i c.fs = _ := Fs.ilock_eq h href
  rw [ilock, if_neg (by omega), bind_ok hacquire]
  by_cases htype : (dinode sb c.fs.store.disk i).type = 0
  · rw [if_pos htype] at hload ⊢
    exact onFs_error hload
  · rw [if_neg htype] at hload ⊢
    exact onFs_ok hload

/-- The loop of `dirlink` ends at the first free slot. -/
theorem freeEntryFrom_run (h : WrittenThrough sb c.fs) (hd : DirOk sb c.fs.store.disk dp)
    (hl : Loaded sb c.fs dp) {k fuel : Nat}
    (hfuel : k + fuel = (dinode sb c.fs.store.disk dp).size / 16 + 1) (hpos : 0 < fuel) :
    freeEntryFrom sb devsw dp fuel (16 * k) c
      = .ok (16 * (k + SlotTable.firstFree
          ((entries c.fs.store.disk (dinode sb c.fs.store.disk dp)).drop k)), c) := by
  have hwhole := hd.whole
  induction fuel generalizing k with
  | zero => cases hpos
  | succ fuel ih =>
    rw [freeEntryFrom, bind_ok (onFs_ok (fields_run hl))]
    by_cases hk : k < (dinode sb c.fs.store.disk dp).size / 16
    · rw [if_pos (by omega), bind_ok (onFs_ok (readEntry_run h hd hl hk)), drop_entries hk, entryAt_eq]
      have hnext := ih (by omega : k + 1 + fuel = _) (by omega)
      have hoff : 16 * (k + 1) = 16 * k + 16 := by omega
      rw [hoff] at hnext
      generalize direntAt (fileByte c.fs.store.disk (dinode sb c.fs.store.disk dp)) k = de
      dsimp only
      by_cases hfree : de.inum = 0
      · rw [if_pos hfree, if_pos hfree]
        rfl
      · rw [if_neg hfree, if_neg hfree, SlotTable.firstFree]
        refine hnext.trans ?_
        rw [Nat.add_assoc, Nat.add_comm 1]
    · rw [if_neg (by omega), drop_entries_of_le (by omega)]
      rfl

/-- `dirlink` of a name that is present takes the inode that has it, and gives it back. -/
theorem dirlink_present (h : WrittenThrough sb c.fs) (hd : DirOk sb c.fs.store.disk dp)
    (hl : Loaded sb c.fs dp) {name : List UInt8} {k inum : Nat}
    (hfind : SlotTable.find (key (cstr name))
      (entries c.fs.store.disk (dinode sb c.fs.store.disk dp)) = some (k, inum)) (inum' : Nat) :
    dirlink sb devsw dp name inum' c
      = if CanGet sb c.fs inum then
          if inum ∈ c.locked then .error .asleep
          else .ok (-1, { c with fs := c.fs.glanced inum })
        else .error (.panic .noEntries) := by
  have hlookup : dirlookup sb devsw dp name c.fs = _ := dirlookup_run h hd hl name
  rw [hfind] at hlookup
  by_cases hget : CanGet sb c.fs inum
  · rw [if_pos hget]
    have hrun : reported sb (some (k, inum)) c.fs = .ok (some (inum, 16 * k), c.fs.iget inum) :=
      (reported_some ..).trans (if_pos hget)
    rw [dirlink, bind_ok (onFs_ok (hlookup.trans hrun))]
    by_cases hlocked : inum ∈ c.locked
    · rw [if_pos hlocked]
      have hsleep : acquiresleep inum { c with fs := c.fs.iget inum } = .error .asleep :=
        if_pos hlocked
      exact bind_error (bind_error hsleep)
    · rw [if_neg hlocked]
      have hacquire : acquiresleep inum { c with fs := c.fs.iget inum }
          = .ok ((), ⟨c.fs.iget inum, inum :: c.locked⟩) := if_neg hlocked
      have hput : Call.iput sb inum { c with fs := c.fs.iget inum }
          = .ok ((), { c with fs := c.fs.glanced inum }) := by
        have hin : onFs (Fs.iput sb inum) ⟨c.fs.iget inum, inum :: c.locked⟩ = _ :=
          onFs_ok (iput_iget inum)
        rw [Call.iput, bind_ok hacquire, bind_ok hin]
        rw [releasesleep, List.erase_cons_head]
      exact bind_ok hput
  · rw [if_neg hget]
    have hrun : reported sb (some (k, inum)) c.fs = .error .noEntries :=
      (reported_some ..).trans (if_neg hget)
    exact bind_error (onFs_error (hlookup.trans hrun))

/-- `dirlink` of a new name stores it in the first free slot, or behind the last one. -/
theorem dirlink_absent {Err : Stop → Prop} (hv : sb.Valid) (h : WrittenThrough sb c.fs)
    (hd : DirOk sb c.fs.store.disk dp) (hl : Loaded sb c.fs dp) {name : List UInt8} {inum j : Nat}
    (hfind : SlotTable.find (key (cstr name))
      (entries c.fs.store.disk (dinode sb c.fs.store.disk dp)) = none)
    (hpos : 0 < inum) (hsmall : inum < 2 ^ 16)
    (hj : j = (entries c.fs.store.disk (dinode sb c.fs.store.disk dp)).firstFree)
    (hbig : ¬ 16 * j + 16 ≤ 140 * 512 → Err .dirlink)
    (hfull : 16 * j + 16 ≤ 140 * 512 → ¬ EntryRoom sb c.fs.store.disk dp j →
      Err (.panic .outOfBlocks)) :
    Spec Err (dirlink sb devsw dp name inum) c fun r c' => r = 0 ∧ c'.locked = c.locked ∧
      16 * j + 16 ≤ 140 * 512 ∧
      EntryWritten sb c.fs dp j (putDirent inum (strncpy (cstr name) 14 0)) c'.fs ∧
      entries c'.fs.store.disk (dinode sb c'.fs.store.disk dp)
        = (entries c.fs.store.disk (dinode sb c.fs.store.disk dp)).put (key (cstr name)) inum := by
  have hlookup : dirlookup sb devsw dp name c.fs = _ := dirlookup_run h hd hl name
  rw [hfind] at hlookup
  have hnone : reported sb none c.fs = .ok (none, c.fs) := rfl
  unfold dirlink
  refine Spec.seq_ok (onFs_ok (hlookup.trans hnone)) ?_
  unfold addEntry
  refine Spec.seq_ok (onFs_ok (fields_run hl)) ?_
  have hfree : freeEntryFrom sb devsw dp _ (16 * 0) c = _ :=
    freeEntryFrom_run h hd hl (Nat.zero_add _) (Nat.succ_pos _)
  rw [List.drop_zero, Nat.zero_add, ← hj] at hfree
  refine Spec.seq_ok hfree ?_
  have hle : j ≤ (entries c.fs.store.disk (dinode sb c.fs.store.disk dp)).length :=
    hj.trans_le SlotTable.firstFree_le
  have hlen : (putDirent inum (strncpy (cstr name) 14 0)).length = 16 := by
    rw [putDirent, List.length_cons, List.length_cons, (strncpy_spec ..).1]
  have hk : 16 * j ≤ (dinode sb c.fs.store.disk dp).size := by
    rw [length_entries] at hle
    omega
  have hwrite : Spec (fun p => Err (.panic p)) (onInode dp fun ip =>
      writei sb devsw dp ip (putDirent inum (strncpy (cstr name) 14 0)) (16 * j)) c.fs _ :=
    writeEntry_spec hv h hd hl hlen hk hfull
  refine Spec.seq (onFs_spec hwrite) ?_
  rintro r c' ⟨hr, hlocked⟩
  by_cases hfit : 16 * j + 16 ≤ 140 * 512
  · rw [if_pos hfit] at hr
    obtain ⟨rfl, hw⟩ := hr
    rw [if_pos rfl]
    exact Spec.pure ⟨rfl, hlocked, hfit, hw, hw.put hj hpos hsmall⟩
  · rw [if_neg hfit] at hr
    subst hr
    rw [if_neg (by decide)]
    exact Spec.throw (hbig hfit)

theorem clearEntry_spec (hv : sb.Valid) (h : WrittenThrough sb c.fs)
    (hd : DirOk sb c.fs.store.disk dp) (hl : Loaded sb c.fs dp) {k : Nat}
    (hk : k < (entries c.fs.store.disk (dinode sb c.fs.store.disk dp)).length) :
    Spec (fun _ => False) (clearEntry sb devsw dp (16 * k)) c fun _ c' => c'.locked = c.locked ∧
      EntryWritten sb c.fs dp k (List.replicate 16 0) c'.fs ∧
      entries c'.fs.store.disk (dinode sb c'.fs.store.disk dp)
        = (entries c.fs.store.disk (dinode sb c.fs.store.disk dp)).set k none := by
  have hlen := length_entries.symm.trans_ge hk
  have hwhole := hd.whole
  have hfits := hd.fits
  have hroom : EntryRoom sb c.fs.store.disk dp k := by
    rw [EntryRoom, max_eq_left (by omega)]
    exact Nat.le_add_left ..
  have hwrite : Spec (fun _ => False) (onInode dp fun ip =>
      writei sb devsw dp ip (List.replicate 16 0) (16 * k)) c.fs _ :=
    writeEntry_spec hv h hd hl List.length_replicate (by omega) fun _ hfew => hfew hroom
  refine Spec.seq (onFs_spec hwrite) ?_
  rintro r c' ⟨hr, hlocked⟩
  rw [if_pos (by omega)] at hr
  obtain ⟨rfl, hw⟩ := hr
  rw [if_pos rfl]
  exact Spec.pure ⟨hlocked, hw, hw.clear hk⟩

end Call

end Xv6Sharing.Fs
