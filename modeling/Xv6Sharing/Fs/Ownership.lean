/-
Xv6Sharing.Fs.Ownership — disk blocks are owned exactly once.

The machine runs the functions of fs.c as the system calls combine them: an
inode is taken into the cache by `iget`, read from the disk by `ilock`, read,
written and updated while it is locked, and given back by `iput`, which frees it
when it has no links and no other references. The cache keeps one entry for an
inode number. System calls hand `iget` numbers of the inode table only.

Files must have no holes in the image: `readi` and `writei` fill a hole through
`bmap` without storing the inode, so the block is lost when the inode leaves the
cache. From an image without holes none appears.
-/
import Xv6Sharing.Fs.Cache
import Xv6Sharing.Fs.InodeTheorems

namespace Xv6Sharing.Fs

open Lib

/-! ## The machine -/

inductive Event where
  | ialloc (type : Nat)
  | iget (i : Nat)
  | ilock (i : Nat)
  | readi (i off n : Nat)
  | writei (i : Nat) (src : List UInt8) (off : Nat)
  /-- The fields that system calls set before `iupdate`. -/
  | update (i major minor nlink : Nat)
  | iput (i : Nat)

section

variable (sb : Superblock) (devsw : Devsw)

inductive Step (fs : FileSys) : Event → FileSys → Prop
  | ialloc {type i : Nat} {s : Store} : type ≠ 0 → type < 2 ^ 16 →
      ialloc sb type fs.store = .ok (i, s) →
      Step fs (.ialloc type) ({ fs with store := s }.iget i)
  | iget {i : Nat} : i < sb.ninodes → Step fs (.iget i) (fs.iget i)
  | ilock {i : Nat} : 0 < fs.ref i → fs.copy i = none → (dinode sb fs.store.disk i).type ≠ 0 →
      Step fs (.ilock i)
        { fs with copy := Function.update fs.copy i (some (dinode sb fs.store.disk i)) }
  | readi {i off n : Nat} {ip ip' : Dinode} {r : Option (List UInt8)} {s : Store} :
      0 < fs.ref i → fs.copy i = some ip → n < 2 ^ 32 →
      readi sb devsw ip off n fs.store = .ok ((ip', r), s) →
      Step fs (.readi i off n)
        { fs with store := s, copy := Function.update fs.copy i (some ip') }
  | writei {i off : Nat} {src : List UInt8} {ip ip' : Dinode} {r : Int} {s : Store} :
      0 < fs.ref i → fs.copy i = some ip → src.length < 2 ^ 32 →
      writei sb devsw i ip src off fs.store = .ok ((ip', r), s) →
      Step fs (.writei i src off)
        { fs with store := s, copy := Function.update fs.copy i (some ip') }
  | update {i major minor nlink : Nat} {ip : Dinode} {s : Store} :
      0 < fs.ref i → fs.copy i = some ip → major < 2 ^ 16 → minor < 2 ^ 16 → nlink < 2 ^ 16 →
      iupdate sb i { ip with major, minor, nlink } fs.store = .ok ((), s) →
      Step fs (.update i major minor nlink)
        { fs with store := s, copy := Function.update fs.copy i (some { ip with major, minor, nlink }) }
  | iput {i : Nat} : 0 < fs.ref i → (∀ ip, ¬ fs.Frees i ip) →
      Step fs (.iput i) { fs with ref := Function.update fs.ref i (fs.ref i - 1) }
  | free {i : Nat} {ip : Dinode} {s : Store} : fs.Frees i ip →
      freeInode sb i ip fs.store = .ok ((), s) →
      Step fs (.iput i)
        { store := s, copy := Function.update fs.copy i none, ref := Function.update fs.ref i 0 }

end

/-! ## The invariant -/

/-- A disk whose blocks are owned and whose files have no holes. -/
structure Consistent (sb : Superblock) (disk : Disk) : Prop where
  owned : BlocksOwned sb disk (dinode sb disk)
  noHoles : ∀ i < sb.ninodes, (dinode sb disk i).type ≠ 0 → (dinode sb disk i).type ≠ T_DEV →
    Covered disk (dinode sb disk i) (dinode sb disk i).size

/-- The disk is consistent, and valid entries of the cache in use are what the disk holds. -/
structure WrittenThrough (sb : Superblock) (fs : FileSys) : Prop where
  disk : Consistent sb fs.store.disk
  inTable : ∀ i, 0 < fs.ref i → i < sb.ninodes
  cached : ∀ i, 0 < fs.ref i → ∀ ip, fs.copy i = some ip →
    ip = dinode sb fs.store.disk i ∧ ip.type ≠ 0

variable {sb : Superblock} {devsw : Devsw} {fs fs' : FileSys}

theorem Consistent.replace {disk disk' : Disk} {i : Nat} {ip : Dinode} (h : Consistent sb disk)
    (howned : BlocksOwned sb disk' (Function.update (dinode sb disk) i ip))
    (hothers : ∀ o : Nat × Slot, o.1 ≠ i → ownerAddr sb.ninodes disk' (dinode sb disk) o
      = ownerAddr sb.ninodes disk (dinode sb disk) o)
    (hdinode : ∀ j < sb.ninodes, dinode sb disk' j = Function.update (dinode sb disk) i ip j)
    (hcov : ip.type ≠ 0 → ip.type ≠ T_DEV → Covered disk' ip ip.size) : Consistent sb disk' := by
  refine ⟨⟨howned.owned.congr (fun o => ?_) fun _ _ => Iff.rfl, howned.metadata⟩,
    fun j hj htype hdev => ?_⟩
  · unfold ownerAddr
    by_cases hlt : o.1 < sb.ninodes
    · rw [hdinode _ hlt]
    · rw [if_neg (by simp [hlt]), if_neg (by simp [hlt])]
  · rw [hdinode j hj] at htype hdev ⊢
    by_cases hji : j = i
    · subst hji
      rw [Function.update_self] at htype hdev ⊢
      exact hcov htype hdev
    · rw [Function.update_of_ne hji] at htype hdev ⊢
      intro t
      rw [slotAddr_eq_owner hj htype, hothers (j, t) hji, ← slotAddr_eq_owner hj htype]
      exact h.noHoles j hj htype hdev t

/-- A step that replaces inode `i` on the disk and in the cache. -/
theorem WrittenThrough.replace (h : WrittenThrough sb fs) {i : Nat} {ip : Dinode} {s : Store}
    (hi : i < sb.ninodes) (htype : ip.type ≠ 0) (hdisk : Consistent sb s.disk)
    (hdinode : ∀ j < sb.ninodes,
      dinode sb s.disk j = Function.update (dinode sb fs.store.disk) i ip j) :
    WrittenThrough sb
      { fs with store := s, copy := Function.update fs.copy i (some ip) } := by
  refine ⟨hdisk, h.inTable, fun j hj ip' hcopy => ?_⟩
  show ip' = dinode sb s.disk j ∧ _
  rw [hdinode j (h.inTable j hj)]
  by_cases hji : j = i
  · subst hji
    have hnew : Function.update fs.copy j (some ip) j = some ip' := hcopy
    rw [Function.update_self] at hnew ⊢
    cases hnew
    exact ⟨rfl, htype⟩
  · have hold : fs.copy j = some ip' := (Function.update_of_ne hji ..).symm.trans hcopy
    rw [Function.update_of_ne hji]
    exact h.cached j hj ip' hold

/-! ## One step -/

section Calls

variable {i : Nat} {ip : Dinode} {s : Store}

/-- The inode of the disk, as the functions of fs.c take it. -/
theorem Consistent.owned_self {disk : Disk} (h : Consistent sb disk) (i : Nat) :
    BlocksOwned sb disk (Function.update (dinode sb disk) i (dinode sb disk i)) := by
  rw [Function.update_eq_self]
  exact h.owned

/-- What `readi` returns of a file. -/
def readResult (disk : Disk) (ip : Dinode) (off n : Nat) : Option (List UInt8) :=
  if off > ip.size ∨ 2 ^ 32 ≤ off + n then none else some (((contents disk ip).drop off).take n)

theorem readResult_length {disk : Disk} {off n : Nat} {bs : List UInt8}
    (h : readResult disk ip off n = some bs) : off + bs.length ≤ ip.size := by
  unfold readResult at h
  split at h
  · cases h
  · cases h
    rw [List.length_take, List.length_drop, length_contents]
    omega

/-- `readi` of a file without holes returns its bytes and changes nothing. -/
theorem readi_spec {Err : Panic → Prop} (h : Consistent sb s.disk) (hi : i < sb.ninodes)
    (htype : (dinode sb s.disk i).type ≠ 0)
    (hrange : (dinode sb s.disk i).type ≠ T_DEV → 140 * 512 < (dinode sb s.disk i).size →
      Err .outOfRange) (off : Nat) {n : Nat} (hn : n < 2 ^ 32) :
    Spec Err (readi sb devsw (dinode sb s.disk i) off n) s fun r s' =>
      r.1 = dinode sb s.disk i ∧ s' = s ∧ ((dinode sb s.disk i).type ≠ T_DEV →
        r.2 = readResult s.disk (dinode sb s.disk i) off n) := by
  have hsize := (dinode_fits sb s.disk i).size
  unfold readi readResult
  by_cases hdev : (dinode sb s.disk i).type = T_DEV
  · rw [if_pos hdev]
    exact Spec.pure ⟨rfl, rfl, absurd hdev⟩
  · rw [if_neg hdev]
    by_cases hout : off > (dinode sb s.disk i).size ∨ (off + n) % 2 ^ 32 < off
    · rw [if_pos hout]
      exact Spec.pure ⟨rfl, rfl, fun _ => (if_pos (by omega)).symm⟩
    · have hin : ¬ (off > (dinode sb s.disk i).size ∨ 2 ^ 32 ≤ off + n) := by omega
      rw [if_neg hout, if_neg hin]
      -- the length is cut at the end of the file
      have hcut : (if (off + n) % 2 ^ 32 > (dinode sb s.disk i).size
          then (dinode sb s.disk i).size - off else n) = min n ((dinode sb s.disk i).size - off) := by
        split <;> omega
      rw [hcut]
      have hend : off + min n ((dinode sb s.disk i).size - off) ≤ (dinode sb s.disk i).size := by
        omega
      refine Spec.seq (readLoop_spec (hrange hdev) (h.noHoles i hi htype hdev) hend le_rfl) ?_
      rintro r s' ⟨rfl, rfl⟩
      refine Spec.pure ⟨rfl, rfl, fun _ => ?_⟩
      rw [← contents_slice hend, ← List.take_take, List.take_of_length_le
        (l := (contents s'.disk (dinode sb s'.disk i)).drop off) (by simp)]

/-- The blocks of the other inodes hold what they held. -/
def OthersKept (sb : Superblock) (i : Nat) (disk disk' : Disk) : Prop :=
  ∀ o : Nat × Slot, o.1 ≠ i → ownerAddr sb.ninodes disk (dinode sb disk) o ≠ 0 →
    disk' (ownerAddr sb.ninodes disk (dinode sb disk) o)
      = disk (ownerAddr sb.ninodes disk (dinode sb disk) o)

theorem Consistent.othersKept {disk disk' : Disk} (h : Consistent sb disk)
    (hdata : ∀ c, sb.Data c → disk' c = disk c) : OthersKept sb i disk disk' :=
  fun o _ hne => hdata _ (h.owned.owned.data o hne)

/-- What `writei` of `src` at `off` leaves of the disk, with the inode and the result `r`. -/
structure Written (sb : Superblock) (disk : Disk) (i : Nat) (src : List UInt8) (off : Nat)
    (r : Dinode × Int) (disk' : Disk) : Prop where
  consistent : Consistent sb disk'
  type : r.1.type = (dinode sb disk i).type
  fields : r.1 = { dinode sb disk i with size := r.1.size, addrs := r.1.addrs }
  inodes : ∀ j < sb.ninodes, dinode sb disk' j = Function.update (dinode sb disk) i r.1 j
  others : OthersKept sb i disk disk'
  room : (dinode sb disk i).type ≠ T_DEV → freeBlocks sb disk' + blocksFor r.1.size
    = freeBlocks sb disk + blocksFor (dinode sb disk i).size
  bytes : (dinode sb disk i).type ≠ T_DEV → off ≤ (dinode sb disk i).size →
    off + src.length ≤ 140 * 512 → r.2 = src.length ∧
    r.1.size = max (dinode sb disk i).size (off + src.length) ∧
    Stored disk (dinode sb disk i) src off (dinode sb disk i).size r.1 disk'
  refused : (dinode sb disk i).type ≠ T_DEV →
    ¬ (off ≤ (dinode sb disk i).size ∧ off + src.length ≤ 140 * 512) →
    r = (dinode sb disk i, -1)

/-- `writei` leaves a consistent disk, and stores what it changed in the inode. -/
theorem writei_spec {Err : Panic → Prop} (hv : sb.Valid)
    (h : Consistent sb s.disk) (hi : i < sb.ninodes) (htype : (dinode sb s.disk i).type ≠ 0)
    {src : List UInt8} (hsrc : src.length < 2 ^ 32) (off : Nat)
    (hfull : off ≤ (dinode sb s.disk i).size → off + src.length ≤ 140 * 512 →
      freeBlocks sb s.disk + blocksFor (dinode sb s.disk i).size
        < blocksFor (max (dinode sb s.disk i).size (off + src.length)) → Err .outOfBlocks) :
    Spec Err (writei sb devsw i (dinode sb s.disk i) src off) s fun r s' =>
      Written sb s.disk i src off r s'.disk ∧ (r.2 = -1 → s' = s) := by
  -- the calls that do nothing to the file
  have hself : ∀ r : Int, ((dinode sb s.disk i).type ≠ T_DEV →
      ¬ (off ≤ (dinode sb s.disk i).size ∧ off + src.length ≤ 140 * 512) ∧ r = -1) →
      Written sb s.disk i src off (dinode sb s.disk i, r) s.disk := by
    intro r hno
    refine ⟨h, rfl, rfl, fun j _ => ?_, fun _ _ _ => rfl, fun _ => rfl,
      fun hdev hle hmax => absurd ⟨hle, hmax⟩ (hno hdev).1, fun hdev _ => ?_⟩
    · rw [Function.update_eq_self]
    · rw [(hno hdev).2]
  unfold writei
  by_cases hdev : (dinode sb s.disk i).type = T_DEV
  · rw [if_pos hdev]
    exact Spec.pure ⟨hself _ fun hne => absurd hdev hne, fun _ => rfl⟩
  · rw [if_neg hdev]
    by_cases hout : off > (dinode sb s.disk i).size ∨ (off + src.length) % 2 ^ 32 < off
    · rw [if_pos hout]
      exact Spec.pure ⟨hself _ fun _ => ⟨by omega, rfl⟩, fun _ => rfl⟩
    · rw [if_neg hout]
      by_cases hbig : (off + src.length) % 2 ^ 32 > 140 * 512
      · rw [if_pos hbig]
        exact Spec.pure ⟨hself _ fun _ => ⟨by omega, rfl⟩, fun _ => rfl⟩
      · rw [if_neg hbig]
        have hsize := (dinode_fits sb s.disk i).size
        refine Spec.seq (writeLoop_spec hv (h.owned_self i) hi htype (dinode_fits ..)
          (h.noHoles i hi htype hdev) (by omega) le_rfl (by omega)
          (hfull (by omega) (by omega))) ?_
        rintro ip' s' ⟨hext, hkept, hstored⟩
        have hsize' : ip'.size = (dinode sb s.disk i).size := by rw [hext.fields]
        have htype' : ip'.type = (dinode sb s.disk i).type := by rw [hext.fields]
        by_cases hgrow : src ≠ [] ∧ off + src.length > ip'.size
        · rw [if_pos hgrow]
          have hfits : Dinode.Fits { ip' with size := off + src.length } :=
            ⟨hext.fits.type, hext.fits.major, hext.fits.minor, hext.fits.nlink,
              show off + src.length < 2 ^ 32 by omega, hext.fits.addrs, hext.fits.thirteen⟩
          have hblocks : BlocksOwned sb s'.disk (Function.update (dinode sb s.disk) i
              { ip' with size := off + src.length }) := hext.blocks.sameAddrs rfl rfl
          refine Spec.seq (iupdate_spec hv hblocks hi hfits) ?_
          rintro - s'' ⟨howned, howner, hdinode, hdata, hfree⟩
          have hd : ∀ j < sb.ninodes, dinode sb s''.disk j = Function.update (dinode sb s.disk) i
              { ip' with size := off + src.length } j := by
            intro j hj
            rw [hdinode, Function.update_apply, Function.update_apply]
            exact if_congr Iff.rfl rfl (hext.same.dinode hv hj)
          have hslots : ∀ t, slotAddr s''.disk { ip' with size := off + src.length } t
              = slotAddr s'.disk ip' t := by
            intro t
            have hslot := howner (i, t)
            rw [ownerAddr_self hi (by exact htype' ▸ htype),
              ownerAddr_self hi (by exact htype' ▸ htype)] at hslot
            rw [hslot]
            cases t <;> rfl
          have hcov := hext.covered
          have hroom := hext.room
          rw [max_eq_right (by omega)] at hcov hroom
          rw [← hfree] at hroom
          have hfields : ({ ip' with size := off + src.length } : Dinode)
              = { dinode sb s.disk i with size := off + src.length, addrs := ip'.addrs } := by
            rw [hext.fields]
          refine Spec.pure ⟨⟨h.replace howned (fun o ho => ?_) hd fun _ _ t => ?_, htype', hfields, hd,
            fun o ho hne => ?_, fun _ => hroom, fun _ _ _ => ⟨rfl, ?_, fun x hx => ?_⟩,
            fun _ hno => ?_⟩, fun hneg => ?_⟩
          · have hlast := howner o
            rw [ownerAddr_of_ne ho, ownerAddr_of_ne ho] at hlast
            rw [hlast, hext.others o ho]
          · rw [hslots t]
            exact hcov t
          · rw [hdata _ (h.owned.owned.data o hne)]
            exact hext.kept o ho hne
          · show off + src.length = max _ _
            omega
          · rw [← hstored x hx]
            refine fileByte_congr fun hbn => ⟨hslots _, hdata _ ?_⟩
            exact (owned_slot hext.blocks.owned hi (htype' ▸ htype)
              (hcov.slot (by omega) hbn)).1
          · exact absurd hno (by omega)
          · exact absurd hneg (by simp only; omega)
        · rw [if_neg hgrow]
          have hle : off + src.length ≤ ip'.size := by
            by_cases hnil : src = []
            · rw [hnil, List.length_nil]
              omega
            · exact not_lt.mp fun hlt => hgrow ⟨hnil, hlt⟩
          have hip : ip' = dinode sb s.disk i := hkept (by omega)
          have hd : ∀ j < sb.ninodes, dinode sb s'.disk j
              = Function.update (dinode sb s.disk) i ip' j := by
            intro j hj
            rw [hip, Function.update_eq_self]
            exact hext.same.dinode hv hj
          have hend : max (dinode sb s.disk i).size (off + src.length) = ip'.size := by omega
          have hfields : ip' = { dinode sb s.disk i with size := ip'.size, addrs := ip'.addrs } := by
            rw [hip]
          refine Spec.pure ⟨⟨h.replace hext.blocks hext.others hd fun _ _ t => ?_, htype', hfields, hd,
            hext.kept, fun _ => ?_, fun _ _ _ => ⟨rfl, hend.symm, hstored⟩, fun _ hno => ?_⟩,
            fun hneg => ?_⟩
          · rw [← hend]
            exact hext.covered t
          · show freeBlocks sb s'.disk + blocksFor ip'.size = _
            rw [← hend, hext.room]
          · exact absurd hno (by omega)
          · exact absurd hneg (by simp only; omega)

/-- `ialloc` turns a free inode into one without blocks. -/
theorem iallocFrom_spec {Err : Panic → Prop} (hnone : Err .noInodes) (hv : sb.Valid)
    (h : Consistent sb s.disk) {type : Nat} (htype : type < 2 ^ 16) (n inum : Nat) :
    Spec Err (iallocFrom sb type n inum) s fun i s' => i < sb.ninodes ∧
      (dinode sb s.disk i).type = 0 ∧ Consistent sb s'.disk ∧
      (∀ j < sb.ninodes, dinode sb s'.disk j
        = Function.update (dinode sb s.disk) i (zeroInode type) j) ∧
      OthersKept sb i s.disk s'.disk := by
  induction n generalizing inum with
  | zero => exact Spec.throw hnone
  | succ n ih =>
    unfold iallocFrom
    by_cases hlt : inum < sb.ninodes
    · rw [if_pos hlt]
      refine Spec.seq_ok (m := bread _) rfl ?_
      by_cases hfree : (getInode (s.disk (sb.iblock inum)) (inum % 8)).type = 0
      · rw [if_pos hfree]
        have hfits : (zeroInode type).Fits :=
          ⟨htype, Nat.two_pow_pos 16, Nat.two_pow_pos 16, Nat.two_pow_pos 16, Nat.two_pow_pos 32,
            fun _ => Nat.two_pow_pos 32, fun _ _ => rfl⟩
        have hempty : ∀ t, ownerAddr sb.ninodes s.disk (dinode sb s.disk) (inum, t) = 0 := by
          intro t
          exact if_neg fun hal => hal.2 hfree
        have howned : BlocksOwned sb s.disk
            (Function.update (dinode sb s.disk) inum (zeroInode type)) :=
          h.owned.replaceEmpty hempty fun _ => rfl
        obtain ⟨howned', howner, -⟩ := howned.putInode hv hlt (zeroInode type)
        have hd : dinode sb (Function.update s.disk (sb.iblock inum) _) = _ := dinode_putInode hfits
        refine Spec.of_ok (a := inum) rfl ⟨hlt, hfree, h.replace howned' (fun o ho => ?_)
          (fun j _ => congrFun hd j) fun _ _ t => ?_, fun j _ => congrFun hd j,
          h.othersKept fun c hc => Function.update_of_ne (fun heq => ?_) ..⟩
        · have hother := howner o
          rwa [ownerAddr_of_ne ho, ownerAddr_of_ne ho] at hother
        · rw [slotAddr_eq_zero fun _ => rfl]
          simp [zeroInode]
        · have hmeta := hv.iblock_lt hlt
          exact absurd hc.1 (by omega)
      · rw [if_neg hfree]
        exact ih (inum + 1)
    · rw [if_neg hlt]
      exact Spec.throw hnone

/-- `iput` gives back every block of the inode, and never finds one that is free. -/
theorem freeInode_spec (hv : sb.Valid) (h : Consistent sb s.disk) (hi : i < sb.ninodes)
    (htype : (dinode sb s.disk i).type ≠ 0) :
    Spec (fun _ => False) (freeInode sb i (dinode sb s.disk i)) s fun _ s' =>
      Consistent sb s'.disk ∧
      (∀ j < sb.ninodes, j ≠ i → dinode sb s'.disk j = dinode sb s.disk j) ∧
      OthersKept sb i s.disk s'.disk ∧ (dinode sb s'.disk i).type = 0 := by
  refine Spec.seq (itrunc_spec hv (h.owned_self i) hi htype (dinode_fits ..)) ?_
  rintro ip' s' ⟨rfl, howned, hothers, hdinode, hdata⟩
  show Spec _ (iupdate sb i { dinode sb s.disk i with type := 0, size := 0, addrs := fun _ => 0 }) _ _
  generalize hd : Dinode.mk 0 (dinode sb s.disk i).major (dinode sb s.disk i).minor
    (dinode sb s.disk i).nlink 0 (fun _ => 0) = d
  have haddrs : ∀ k, d.addrs k = 0 := fun k => by rw [← hd]
  have hzero : d.type = 0 := by rw [← hd]
  have hfits : d.Fits := by
    have hold := dinode_fits sb s.disk i
    rw [← hd]
    exact ⟨Nat.two_pow_pos 16, hold.major, hold.minor, hold.nlink, Nat.two_pow_pos 32,
      fun _ => Nat.two_pow_pos 32, fun _ _ => rfl⟩
  have howned' : BlocksOwned sb s'.disk (Function.update (dinode sb s.disk) i d) := by
    have hnone := howned.replaceEmpty (fun t =>
      (ownerAddr_self hi (by exact htype) t).trans (slotAddr_eq_zero (fun _ => rfl) t)) haddrs
    rwa [Function.update_idem] at hnone
  refine Spec.mono (iupdate_spec hv howned' hi hfits) ?_
  rintro - s'' ⟨howned'', howner, hdinode', hdata', -⟩
  have hall : ∀ j < sb.ninodes, dinode sb s''.disk j = Function.update (dinode sb s.disk) i d j := by
    intro j hj
    rw [hdinode', Function.update_apply, Function.update_apply]
    split
    · rfl
    · rw [hdinode j hj, Function.update_of_ne ‹_›]
  refine ⟨h.replace howned'' (fun o ho => ?_) hall fun htype' => absurd hzero htype',
    fun j hj hji => (hall j hj).trans (Function.update_of_ne hji ..),
    h.othersKept fun c hc => (hdata' c hc).trans (hdata c hc), ?_⟩
  · have hlast := howner o
    rw [ownerAddr_of_ne ho, ownerAddr_of_ne ho] at hlast
    rw [hlast, hothers o ho]
  · rw [hall i hi, Function.update_self, hzero]

end Calls

theorem Dinode.Fits.setFields {ip : Dinode} (h : ip.Fits) {major minor nlink : Nat}
    (hmajor : major < 2 ^ 16) (hminor : minor < 2 ^ 16) (hnlink : nlink < 2 ^ 16) :
    Dinode.Fits { ip with major, minor, nlink } :=
  ⟨h.type, hmajor, hminor, hnlink, h.size, h.addrs, h.thirteen⟩

/-- Any panic: for statements about calls that return. -/
def anyPanic : Panic → Prop := fun _ => True

theorem WrittenThrough.iget (h : WrittenThrough sb fs) {i : Nat} (hi : i < sb.ninodes) :
    WrittenThrough sb (fs.iget i) := by
  have hcopy : ∀ j, 0 < (fs.iget i).ref j → ∀ ip, (fs.iget i).copy j = some ip →
      0 < fs.ref j ∧ fs.copy j = some ip := by
    intro j hj ip hip
    unfold FileSys.iget at hj hip
    grind [Function.update_apply]
  refine ⟨h.disk, fun j hj => ?_, fun j hj ip hip => ?_⟩
  · have hin := h.inTable j
    unfold FileSys.iget at hj
    grind [Function.update_apply]
  · obtain ⟨hj', hip'⟩ := hcopy j hj ip hip
    exact h.cached j hj' ip hip'

theorem Step.writtenThrough (hv : sb.Valid) {e : Event} (h : WrittenThrough sb fs)
    (hs : Step sb devsw fs e fs') : WrittenThrough sb fs' := by
  cases hs with
  | @ialloc type i s htype hlt hrun =>
    obtain ⟨hi, hfree, hdisk, hdinode, -⟩ :=
      (iallocFrom_spec trivial hv h.disk hlt _ 1 : Spec anyPanic _ _ _).post hrun
    have hstore : WrittenThrough sb { fs with store := s } := by
      refine ⟨hdisk, h.inTable, fun j hj ip hip => ?_⟩
      obtain ⟨heq, htype'⟩ := h.cached j hj ip hip
      have hji : j ≠ i := by
        rintro rfl
        exact htype' (heq ▸ hfree)
      exact ⟨heq.trans ((hdinode j (h.inTable j hj)).trans (Function.update_of_ne hji ..)).symm,
        htype'⟩
    exact hstore.iget hi
  | iget hi => exact h.iget hi
  | @ilock i href hnone htype =>
    refine ⟨h.disk, h.inTable, fun j hj ip hip => ?_⟩
    by_cases hji : j = i
    · subst hji
      have hload : Function.update fs.copy j (some (dinode sb fs.store.disk j)) j = some ip := hip
      rw [Function.update_self] at hload
      cases hload
      exact ⟨rfl, htype⟩
    · exact h.cached j hj ip ((Function.update_of_ne hji ..).symm.trans hip)
  | @readi i off n ip ip' r s href hip hn hrun =>
    obtain ⟨rfl, htype⟩ := h.cached i href ip hip
    obtain ⟨rfl, rfl, -⟩ := (readi_spec h.disk (h.inTable i href) htype
      (fun _ _ => trivial) off hn : Spec anyPanic _ _ _).post hrun
    refine h.replace (h.inTable i href) htype h.disk fun j _ => ?_
    rw [Function.update_eq_self]
  | @writei i off src ip ip' r s href hip hsrc hrun =>
    obtain ⟨rfl, htype⟩ := h.cached i href ip hip
    obtain ⟨hw, -⟩ := (writei_spec hv h.disk (h.inTable i href) htype hsrc off
      (fun _ _ _ => trivial) : Spec anyPanic _ _ _).post hrun
    exact h.replace (h.inTable i href) (hw.type ▸ htype) hw.consistent hw.inodes
  | @update i major minor nlink ip s href hip hmajor hminor hnlink hrun =>
    obtain ⟨rfl, htype⟩ := h.cached i href ip hip
    have hi := h.inTable i href
    have hfits := (dinode_fits sb fs.store.disk i).setFields hmajor hminor hnlink
    have hblocks : BlocksOwned sb fs.store.disk (Function.update (dinode sb fs.store.disk) i
        { dinode sb fs.store.disk i with major, minor, nlink }) :=
      (h.disk.owned_self i).sameAddrs rfl rfl
    obtain ⟨howned, howner, hdinode, -⟩ :=
      (iupdate_spec hv hblocks hi hfits : Spec anyPanic _ _ _).post hrun
    have hothers : ∀ o : Nat × Slot, o.1 ≠ i →
        ownerAddr sb.ninodes s.disk (dinode sb fs.store.disk) o
          = ownerAddr sb.ninodes fs.store.disk (dinode sb fs.store.disk) o := by
      intro o ho
      have hlast := howner o
      rwa [ownerAddr_of_ne ho, ownerAddr_of_ne ho] at hlast
    refine h.replace hi htype (h.disk.replace howned hothers (fun j _ => congrFun hdinode j)
      fun _ hdev t => ?_) fun j _ => congrFun hdinode j
    have hslot := howner (i, t)
    rw [ownerAddr_self hi (by exact htype), ownerAddr_self hi (by exact htype)] at hslot
    rw [hslot]
    have hsame : slotAddr fs.store.disk { dinode sb fs.store.disk i with major, minor, nlink } t
        = slotAddr fs.store.disk (dinode sb fs.store.disk i) t := by cases t <;> rfl
    rw [hsame]
    exact h.disk.noHoles i hi htype hdev t
  | @iput i href hno =>
    refine ⟨h.disk, fun j hj => ?_, fun j hj ip hip => ?_⟩
    · exact h.inTable j (by grind [Function.update_apply])
    · exact h.cached j (by grind [Function.update_apply]) ip hip
  | @free i ip s hfrees hrun =>
    obtain ⟨hip, -, href⟩ := hfrees
    obtain ⟨rfl, htype⟩ := h.cached i (by omega) ip hip
    obtain ⟨hdisk, hdinode, -⟩ :=
      (freeInode_spec hv h.disk (h.inTable i (by omega)) htype).post hrun
    refine ⟨hdisk, fun j hj => ?_, fun j hj ip hip => ?_⟩
    · exact h.inTable j (by grind [Function.update_apply])
    · have hji : j ≠ i := by grind [Function.update_apply]
      have hj' : 0 < fs.ref j := by grind [Function.update_apply]
      obtain ⟨heq, htype'⟩ := h.cached j hj' ip ((Function.update_of_ne hji ..).symm.trans hip)
      exact ⟨heq.trans (hdinode j (h.inTable j hj') hji).symm, htype'⟩

/-! ## What a step leaves of a file in use -/

/-- The file has the size and the bytes it had. -/
structure SameFile (disk : Disk) (ip : Dinode) (disk' : Disk) (ip' : Dinode) : Prop where
  size : ip'.size = ip.size
  bytes : ∀ x < ip.size, fileByte disk' ip' x = fileByte disk ip x

theorem SameFile.refl {disk : Disk} {ip : Dinode} : SameFile disk ip disk ip :=
  ⟨rfl, fun _ _ => rfl⟩

theorem OthersKept.sameFile {disk disk' : Disk} {i j : Nat} (h : Consistent sb disk)
    (hkept : OthersKept sb i disk disk') (hji : j ≠ i) (hj : j < sb.ninodes)
    (htype : (dinode sb disk j).type ≠ 0) (hdev : (dinode sb disk j).type ≠ T_DEV) :
    SameFile disk (dinode sb disk j) disk' (dinode sb disk j) := by
  refine ⟨rfl, fun x hx => ?_⟩
  exact fileByte_other hj htype (h.noHoles j hj htype hdev) hx
    (fun t => ownerAddr_congr fun hne => hkept (j, .addr 12) hji hne) fun t => hkept (j, t) hji

/-- Work on an inode that changes neither its blocks nor its size. -/
theorem Consistent.sameFile {disk disk' : Disk} {ip : Dinode} {j : Nat} (h : Consistent sb disk)
    (hdata : ∀ c, sb.Data c → disk' c = disk c) (hj : j < sb.ninodes)
    (htype : (dinode sb disk j).type ≠ 0) (hdev : (dinode sb disk j).type ≠ T_DEV)
    (haddrs : ip.addrs = (dinode sb disk j).addrs) (hsize : ip.size = (dinode sb disk j).size) :
    SameFile disk (dinode sb disk j) disk' ip := by
  refine ⟨hsize, fun x hx => ?_⟩
  have hslot : ∀ t, slotAddr disk' ip t = slotAddr disk' (dinode sb disk j) t := by
    intro t
    cases t <;> simp only [slotAddr, haddrs]
  have hother : fileByte disk' (dinode sb disk j) x = fileByte disk (dinode sb disk j) x :=
    fileByte_other hj htype (h.noHoles j hj htype hdev) hx
      (fun t => ownerAddr_congr fun hne => hdata _ (h.owned.owned.data _ hne))
      fun t hne => hdata _ (h.owned.owned.data _ hne)
  rw [← hother]
  exact fileByte_congr fun _ => ⟨hslot _, rfl⟩

theorem FileSys.iget_held {j : Nat} {ip : Dinode} (i : Nat) (href : 0 < fs.ref j)
    (hip : fs.copy j = some ip) : 0 < (fs.iget i).ref j ∧ (fs.iget i).copy j = some ip := by
  unfold FileSys.iget
  grind [Function.update_apply]

/-- An entry of the cache stays valid while it is referenced. -/
theorem Step.keepsCopy {e : Event} (hs : Step sb devsw fs e fs') {j : Nat} (href : 0 < fs.ref j)
    (hip : (fs.copy j).isSome) (hused : e = .iput j → 1 < fs.ref j) :
    0 < fs'.ref j ∧ (fs'.copy j).isSome := by
  obtain ⟨ip, hip⟩ := Option.isSome_iff_exists.mp hip
  cases hs with
  | @ialloc type i s htype hlt hrun =>
    have hheld : 0 < (FileSys.iget { fs with store := s } i).ref j ∧ _ :=
      FileSys.iget_held i href hip
    rw [hheld.2]
    exact ⟨hheld.1, rfl⟩
  | @iget i hi =>
    have hheld := FileSys.iget_held i href hip
    rw [hheld.2]
    exact ⟨hheld.1, rfl⟩
  | ilock _ _ _ => exact ⟨href, by grind [Function.update_apply]⟩
  | readi _ _ _ _ => exact ⟨href, by grind [Function.update_apply]⟩
  | writei _ _ _ _ => exact ⟨href, by grind [Function.update_apply]⟩
  | update _ _ _ _ _ _ => exact ⟨href, by grind [Function.update_apply]⟩
  | @iput i hi hno =>
    refine ⟨?_, by rw [hip]; rfl⟩
    show 0 < Function.update fs.ref i (fs.ref i - 1) j
    by_cases hji : j = i
    · subst hji
      have hlast := hused rfl
      rw [Function.update_self]
      omega
    · rwa [Function.update_of_ne hji]
  | @free i ip₁ s hfrees hrun =>
    have hji : j ≠ i := by
      rintro rfl
      have hmore := hused rfl
      have hlast := hfrees.2.2
      omega
    refine ⟨href.trans_eq (Function.update_of_ne hji ..).symm, ?_⟩
    show (Function.update fs.copy i none j).isSome
    rw [Function.update_of_ne hji, hip]
    rfl

/-- A file that is not freed keeps its type on the disk; only a write to it changes its contents,
and none makes it shorter. -/
theorem Step.keepsDisk (hv : sb.Valid) {e : Event} (h : WrittenThrough sb fs)
    (hs : Step sb devsw fs e fs') {j : Nat} (hj : j < sb.ninodes)
    (htype : (dinode sb fs.store.disk j).type ≠ 0) (hdev : (dinode sb fs.store.disk j).type ≠ T_DEV)
    (hused : e = .iput j → ∀ ip, ¬ fs.Frees j ip) :
    (dinode sb fs'.store.disk j).type = (dinode sb fs.store.disk j).type ∧
      (dinode sb fs.store.disk j).size ≤ (dinode sb fs'.store.disk j).size ∧
      ((∃ src off, e = .writei j src off) ∨ SameFile fs.store.disk (dinode sb fs.store.disk j)
        fs'.store.disk (dinode sb fs'.store.disk j)) := by
  -- the inode itself is as it was
  have hsame : dinode sb fs'.store.disk j = dinode sb fs.store.disk j →
      SameFile fs.store.disk (dinode sb fs.store.disk j) fs'.store.disk (dinode sb fs.store.disk j) →
      (dinode sb fs'.store.disk j).type = (dinode sb fs.store.disk j).type ∧
        (dinode sb fs.store.disk j).size ≤ (dinode sb fs'.store.disk j).size ∧
        ((∃ src off, e = .writei j src off) ∨ SameFile fs.store.disk (dinode sb fs.store.disk j)
          fs'.store.disk (dinode sb fs'.store.disk j)) := by
    intro heq hfile
    rw [heq]
    exact ⟨rfl, le_rfl, .inr hfile⟩
  cases hs with
  | @ialloc type i s htype' hlt hrun =>
    obtain ⟨hi, hfree, -, hinodes, hkept⟩ :=
      (iallocFrom_spec trivial hv h.disk hlt _ 1 : Spec anyPanic _ _ _).post hrun
    have hji : j ≠ i := by
      rintro rfl
      exact htype hfree
    exact hsame ((hinodes j hj).trans (Function.update_of_ne hji ..))
      (hkept.sameFile h.disk hji hj htype hdev)
  | iget _ => exact hsame rfl .refl
  | ilock _ _ _ => exact hsame rfl .refl
  | @readi i off n ip₁ ip' r s hi hip₁ hn hrun =>
    obtain ⟨rfl, htype₁⟩ := h.cached i hi ip₁ hip₁
    obtain ⟨-, rfl, -⟩ := (readi_spec h.disk (h.inTable i hi) htype₁
      (fun _ _ => trivial) off hn : Spec anyPanic _ _ _).post hrun
    exact hsame rfl .refl
  | @writei i off src ip₁ ip' r s hi hip₁ hsrc hrun =>
    obtain ⟨rfl, htype₁⟩ := h.cached i hi ip₁ hip₁
    obtain ⟨hw, -⟩ := (writei_spec hv h.disk (h.inTable i hi) htype₁ hsrc off
      (fun _ _ _ => trivial) : Spec anyPanic _ _ _).post hrun
    have hinode := hw.inodes j hj
    by_cases hji : j = i
    · subst hji
      rw [Function.update_self] at hinode
      have hgrows : (dinode sb fs.store.disk j).size ≤ ip'.size := by
        by_cases hin : off ≤ (dinode sb fs.store.disk j).size ∧ off + src.length ≤ 140 * 512
        · rw [(hw.bytes hdev hin.1 hin.2).2.1]
          exact le_max_left ..
        · rw [show ip' = _ from congrArg Prod.fst (hw.refused hdev hin)]
      exact ⟨(congrArg Dinode.type hinode).trans hw.type,
        hgrows.trans_eq (congrArg Dinode.size hinode).symm, .inl ⟨src, off, rfl⟩⟩
    · exact hsame (hinode.trans (Function.update_of_ne hji ..))
        (hw.others.sameFile h.disk hji hj htype hdev)
  | @update i major minor nlink ip₁ s hi hip₁ hmajor hminor hnlink hrun =>
    obtain ⟨rfl, htype₁⟩ := h.cached i hi ip₁ hip₁
    obtain ⟨-, -, hinodes, hdata, -⟩ := (iupdate_spec hv ((h.disk.owned_self i).sameAddrs rfl rfl)
      (h.inTable i hi) ((dinode_fits sb fs.store.disk i).setFields hmajor hminor hnlink) :
      Spec anyPanic _ _ _).post hrun
    have hinode := congrFun hinodes j
    by_cases hji : j = i
    · subst hji
      rw [Function.update_self] at hinode
      have htype' : (dinode sb s.disk j).type = (dinode sb fs.store.disk j).type := by rw [hinode]
      have hsize : (dinode sb s.disk j).size = (dinode sb fs.store.disk j).size := by rw [hinode]
      have haddrs : (dinode sb s.disk j).addrs = (dinode sb fs.store.disk j).addrs := by rw [hinode]
      exact ⟨htype', hsize.ge, .inr (h.disk.sameFile hdata hj htype hdev haddrs hsize)⟩
    · exact hsame (hinode.trans (Function.update_of_ne hji ..))
        (h.disk.sameFile hdata hj htype hdev rfl rfl)
  | iput _ _ => exact hsame rfl .refl
  | @free i ip₁ s hfrees hrun =>
    have hji : j ≠ i := by
      rintro rfl
      exact hused rfl ip₁ hfrees
    obtain ⟨hip₁, -, hlast⟩ := hfrees
    obtain ⟨rfl, htype₁⟩ := h.cached i (by omega) ip₁ hip₁
    obtain ⟨-, hinodes, hkept, -⟩ :=
      (freeInode_spec hv h.disk (h.inTable i (by omega)) htype₁).post hrun
    exact hsame (hinodes j hj hji) (hkept.sameFile h.disk hji hj htype hdev)

theorem Step.keepsFile (hv : sb.Valid) {e : Event} (h : WrittenThrough sb fs)
    (hs : Step sb devsw fs e fs') {j : Nat} {ip : Dinode} (href : 0 < fs.ref j)
    (hip : fs.copy j = some ip) (hdev : ip.type ≠ T_DEV) (hused : e = .iput j → 1 < fs.ref j) :
    ∃ ip', 0 < fs'.ref j ∧ fs'.copy j = some ip' ∧ ip'.type = ip.type ∧ ip.size ≤ ip'.size ∧
      ((∃ src off, e = .writei j src off) ∨ SameFile fs.store.disk ip fs'.store.disk ip') := by
  obtain ⟨href', hip'⟩ := hs.keepsCopy href (Option.isSome_of_eq_some hip) hused
  obtain ⟨ip', hip'⟩ := Option.isSome_iff_exists.mp hip'
  obtain ⟨rfl, htype⟩ := h.cached j href ip hip
  obtain ⟨rfl, -⟩ := (hs.writtenThrough hv h).cached j href' ip' hip'
  refine ⟨_, href', hip', hs.keepsDisk hv h (h.inTable j href) htype hdev fun he ip hfrees => ?_⟩
  have hmore := hused he
  have hlast := hfrees.2.2
  omega

/-! ## Whole runs -/

/-- A data block is marked exactly when one slot of one allocated inode holds it, and the
metadata is marked. -/
structure OwnedOnce (sb : Superblock) (disk : Disk) : Prop where
  data : ∀ b, sb.Data b →
    (Marked sb disk b ↔ ∃! o, ownerAddr sb.ninodes disk (dinode sb disk) o = b)
  metadata : ∀ b < sb.size - sb.nblocks, Marked sb disk b

/-- The machine comes up with an image, and nothing is in the cache. -/
def Mounted (image : Disk → Prop) (fs : FileSys) : Prop :=
  image fs.store.disk ∧ ∀ i, fs.ref i = 0

/-- What the ownership of blocks is good for. -/
structure BlocksSound (sb : Superblock) (fs : FileSys) : Prop where
  once : OwnedOnce sb fs.store.disk
  inMemory : ∀ i, 0 < fs.ref i → ∀ ip, fs.copy i = some ip → ip = dinode sb fs.store.disk i
  apart : ∀ o o', ownerAddr sb.ninodes fs.store.disk (dinode sb fs.store.disk) o ≠ 0 →
    ownerAddr sb.ninodes fs.store.disk (dinode sb fs.store.disk) o
      = ownerAddr sb.ninodes fs.store.disk (dinode sb fs.store.disk) o' → o = o'
  fresh : ∀ b s, balloc sb fs.store = .ok (b, s) →
    ∀ o, ownerAddr sb.ninodes fs.store.disk (dinode sb fs.store.disk) o ≠ b
  freeable : ∀ i ip, fs.Frees i ip → ∃ s, freeInode sb i ip fs.store = .ok ((), s)

theorem WrittenThrough.blocksSound (hv : sb.Valid) (h : WrittenThrough sb fs) :
    BlocksSound sb fs := by
  have howned := h.disk.owned.owned
  refine ⟨⟨fun b hb => howned.existsUnique_iff hb, h.disk.owned.metadata⟩,
    fun i hi ip hip => (h.cached i hi ip hip).1, howned.unique, fun b s hrun => ?_,
    fun i ip hfrees => ?_⟩
  · have ha := (balloc_spec hv (fun _ => trivial) h.disk.owned.metadata : Spec anyPanic _ _ _).post hrun
    exact howned.fresh ha.data ha.free
  · obtain ⟨hip, -, href⟩ := hfrees
    obtain ⟨rfl, htype⟩ := h.cached i (by omega) ip hip
    obtain ⟨_, s, hrun, -⟩ := (freeInode_spec hv h.disk (h.inTable i (by omega)) htype).total
    exact ⟨s, hrun⟩

theorem reach_writtenThrough (hv : sb.Valid)
    (h : Reach (Mounted (Consistent sb)) (Step sb devsw) (fun _ _ => True) fs) :
    WrittenThrough sb fs := by
  refine Reach.invariant (I := fun fs => WrittenThrough sb fs) ?_ ?_ h
  · rintro fs ⟨himage, href⟩
    refine ⟨himage, fun i hi => ?_, fun i hi => ?_⟩
    · exact absurd (href i) (by omega)
    · exact absurd (href i) (by omega)
  · intro fs e fs' hfs _ hs
    exact hs.writtenThrough hv hfs

/-- From an image without holes blocks are owned exactly once in every state. -/
theorem blocks_owned_once (hv : sb.Valid)
    (h : Reach (Mounted (Consistent sb)) (Step sb devsw) (fun _ _ => True) fs) :
    BlocksSound sb fs :=
  (reach_writtenThrough hv h).blocksSound hv

/-! ## Small images -/

/-- A disk of six blocks: one block of inodes, one of the bitmap, two of data. -/
def smallSb : Superblock := ⟨6, 2, 2, 0, 2, 2, 3⟩

/-- Inode 1 is a file of ten bytes in block `addr`. -/
def smallFile (addr : Nat) : Dinode where
  type := T_FILE
  major := 0
  minor := 0
  nlink := 1
  size := 10
  addrs := fun k => if k = 0 then addr else 0

def smallDisk (addr : Nat) (bits : UInt8) : Disk := fun b =>
  if b = 2 then putInode (fun _ => 0) 1 (smallFile addr)
  else if b = 3 then fun x => if x = 0 then bits else 0
  else fun _ => 0

def noDevices : Devsw := ⟨fun _ => none, fun _ => none⟩

section Small

variable {addr : Nat} {disk : Disk}

theorem dinode_small (hdisk : disk 2 = putInode (fun _ => 0) 1 (smallFile addr))
    (haddr : addr < 2 ^ 32) :
    dinode smallSb disk 1 = smallFile addr ∧ (dinode smallSb disk 0).type = 0 := by
  constructor
  · show getInode (disk 2) 1 = _
    rw [hdisk]
    refine getInode_putInode _ _ ⟨show T_FILE < 2 ^ 16 by decide, Nat.two_pow_pos 16,
      Nat.two_pow_pos 16, show 1 < 2 ^ 16 by decide, show 10 < 2 ^ 32 by decide, fun k => ?_,
      fun k hk => if_neg (by omega)⟩
    show (if k = 0 then addr else 0) < _
    split
    · exact haddr
    · decide
  · show (getInode (disk 2) 0).type = 0
    rw [hdisk, getInode_putInode_of_ne _ _ (by decide)]
    rfl

theorem slotAddr_smallFile (t : Slot) :
    slotAddr disk (smallFile addr) t = if t = .addr 0 then addr else 0 := by
  cases t with
  | addr k =>
    show (if (k : Nat) = 0 then addr else 0) = _
    exact if_congr (by rw [Fin.val_eq_zero_iff, Slot.addr.injEq]) rfl rfl
  | entry j =>
    have hnone : (smallFile addr).addrs 12 = 0 := rfl
    rw [slotAddr, if_pos hnone, if_neg (by simp)]

/-- The one slot that may hold something. -/
theorem ownerAddr_small (hdisk : disk 2 = putInode (fun _ => 0) 1 (smallFile addr))
    (haddr : addr < 2 ^ 32) (o : Nat × Slot) :
    ownerAddr smallSb.ninodes disk (dinode smallSb disk) o
      = if o = (1, .addr 0) then addr else 0 := by
  obtain ⟨hfile, hfree⟩ := dinode_small hdisk haddr
  obtain ⟨i, t⟩ := o
  match i with
  | 0 => rw [ownerAddr, if_neg (fun h => h.2 hfree), if_neg (by simp)]
  | 1 =>
    have htype : (smallFile addr).type ≠ 0 := show T_FILE ≠ 0 by decide
    rw [← slotAddr_eq_owner (by decide) (by rwa [hfile]), hfile, slotAddr_smallFile]
    exact if_congr (by simp) rfl rfl
  | i + 2 => rw [ownerAddr, if_neg (fun h => absurd h.1 (by simp [smallSb])), if_neg (by simp)]

theorem smallSb_data {b : Nat} (h : smallSb.Data b) : b = 4 ∨ b = 5 := by
  have h₁ : 6 - 2 ≤ b := h.1
  have h₂ : b < 6 := h.2
  omega

end Small

theorem smallSb_valid : smallSb.Valid := by
  constructor <;> decide

theorem smallDisk_consistent : Consistent smallSb (smallDisk 4 31) := by
  have hblock : smallDisk 4 31 2 = putInode (fun _ => 0) 1 (smallFile 4) := rfl
  have howner := ownerAddr_small hblock (by decide)
  obtain ⟨hdinode, hfree⟩ := dinode_small hblock (by decide)
  refine ⟨⟨⟨by decide, fun o ho => ?_, fun o o' ho heq => ?_, fun b hb => ?_⟩, by decide⟩, ?_⟩
  · rw [howner] at ho ⊢
    have hself : o = (1, .addr 0) := by grind
    rw [if_pos hself]
    decide
  · rw [howner] at ho heq
    rw [howner] at heq
    grind
  · rcases smallSb_data hb with rfl | rfl
    · exact iff_of_true (by decide) ⟨(1, .addr 0), (howner _).trans (if_pos rfl)⟩
    · refine iff_of_false (by decide) ?_
      rintro ⟨o, ho⟩
      rw [howner] at ho
      grind
  · intro i hi htype _ t
    have htwo : i = 0 ∨ i = 1 := Nat.le_one_iff_eq_zero_or_eq_one.mp (Nat.le_of_lt_succ hi)
    rcases htwo with rfl | rfl
    · exact absurd hfree htype
    · rw [hdinode, slotAddr_smallFile]
      show _ ↔ t.offset < 10
      cases t with
      | addr k =>
        by_cases hk : k = 0
        · simp [hk, Slot.offset]
        · have hpos : (k : Nat) ≠ 0 := fun h => hk (Fin.val_eq_zero_iff.mp h)
          simp only [Slot.addr.injEq, hk, Slot.offset, if_false]
          omega
      | entry j =>
        rw [Slot.offset]
        grind

/-- A file is read and given back. -/
theorem blocks_owned_once_small : ∃ fs,
    Reach (Mounted (Consistent smallSb)) (Step smallSb noDevices) (fun _ _ => True) fs ∧
      fs.ref 1 = 1 ∧ BlocksSound smallSb fs := by
  have h₀ : Reach (Mounted (Consistent smallSb)) (Step smallSb noDevices) (fun _ _ => True)
      ⟨⟨smallDisk 4 31, []⟩, fun _ => none, fun _ => 0⟩ :=
    .base ⟨smallDisk_consistent, fun _ => rfl⟩
  have h₁ := Reach.next (a := Event.iget 1) h₀ trivial (Step.iget (by decide))
  exact ⟨_, h₁, rfl, blocks_owned_once smallSb_valid h₁⟩

/-! ## A file with a hole -/

/-- An image on which no block is in use, with a file of ten bytes that has no block. -/
theorem smallDisk_owned : BlocksOwned smallSb (smallDisk 0 15) (dinode smallSb (smallDisk 0 15)) := by
  have howner : ∀ o, ownerAddr smallSb.ninodes (smallDisk 0 15) (dinode smallSb (smallDisk 0 15)) o
      = 0 := by
    intro o
    have hblock : smallDisk 0 15 2 = putInode (fun _ => 0) 1 (smallFile 0) := rfl
    rw [ownerAddr_small hblock (by decide), ite_self]
  refine ⟨⟨by decide, fun o ho => absurd (howner o) ho, fun o _ ho => absurd (howner o) ho,
    fun b hb => ?_⟩, by decide⟩
  rcases smallSb_data hb with rfl | rfl
  · exact iff_of_false (by decide) fun ⟨o, ho⟩ => absurd ((howner o).symm.trans ho) (by decide)
  · exact iff_of_false (by decide) fun ⟨o, ho⟩ => absurd ((howner o).symm.trans ho) (by decide)

/-- What `readi` of the first byte leaves: block 4 is marked, and the inode is not stored. -/
def holeRead : Store where
  disk := Function.update (Function.update (smallDisk 0 15) 3 (setBit (smallDisk 0 15 3) 4)) 4
    fun _ => 0
  logged := [4, 3]

theorem readi_hole : readi smallSb noDevices (smallFile 0) 0 1 ⟨smallDisk 0 15, []⟩
    = .ok (((smallFile 0).setAddr 0 4, some [0]), holeRead) := rfl

/-- Reading in a hole of a file marks a block that no slot holds once the inode has left the
cache. -/
theorem hole_block_lost : ∃ fs,
    Reach (Mounted fun disk => OwnedOnce smallSb disk ∧
        BlocksOwned smallSb disk (dinode smallSb disk))
      (Step smallSb noDevices) (fun _ _ => True) fs ∧ ¬ OwnedOnce smallSb fs.store.disk := by
  have howned := smallDisk_owned
  have h₀ : Reach (Mounted fun disk => OwnedOnce smallSb disk ∧
        BlocksOwned smallSb disk (dinode smallSb disk))
      (Step smallSb noDevices) (fun _ _ => True)
      ⟨⟨smallDisk 0 15, []⟩, fun _ => none, fun _ => 0⟩ :=
    .base ⟨⟨⟨fun _ hb => howned.owned.existsUnique_iff hb, howned.metadata⟩, howned⟩, fun _ => rfl⟩
  have hfile : dinode smallSb (smallDisk 0 15) 1 = smallFile 0 := (dinode_small rfl (by decide)).1
  have h₁ := Reach.next (a := Event.iget 1) h₀ trivial (Step.iget (by decide))
  have h₂ := Reach.next (a := Event.ilock 1) h₁ trivial (Step.ilock Nat.one_pos rfl (by
    show (dinode smallSb (smallDisk 0 15) 1).type ≠ 0
    rw [hfile]
    decide))
  have h₃ := Reach.next (a := Event.readi 1 0 1) h₂ trivial
    (Step.readi Nat.one_pos (congrArg some hfile) (by decide) readi_hole)
  have h₄ := Reach.next (a := Event.iput 1) h₃ trivial (Step.iput Nat.one_pos (by
    rintro ip ⟨hcopy, hlinks, -⟩
    cases hcopy
    exact absurd hlinks (by decide)))
  refine ⟨_, h₄, fun honce => ?_⟩
  have hmark : Marked smallSb holeRead.disk 4 := by decide
  obtain ⟨o, ho, -⟩ := (honce.data 4 (by decide)).mp hmark
  have hblock : holeRead.disk 2 = putInode (fun _ => 0) 1 (smallFile 0) := rfl
  have hnone := ownerAddr_small hblock (by decide) o
  rw [ite_self] at hnone
  exact absurd (hnone.symm.trans ho) (by decide)

end Xv6Sharing.Fs
