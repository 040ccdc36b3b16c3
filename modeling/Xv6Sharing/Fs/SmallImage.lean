/-
Xv6Sharing.Fs.SmallImage — file systems of a few files (kernel/fs.h).

A file of at most one block per inode, inode `i` with its bytes in block `i + 3`:
enough to build directories, and such an image is consistent as soon as the bitmap
marks the blocks of the files.
-/
import Xv6Sharing.Fs.DirTheorems

namespace Xv6Sharing.Fs

open Lib

/-- Four blocks of metadata and eight of data, eight inodes. -/
def imageSb : Superblock := ⟨12, 8, 8, 0, 2, 2, 3⟩

theorem imageSb_valid : imageSb.Valid := by
  constructor <;> decide

/-- An inode and the bytes of its file. -/
structure SmallFile where
  type : Nat
  nlink : Nat
  data : List UInt8
  major : Nat := 0
  minor : Nat := 0

namespace SmallFile

/-- What stands in the table for an inode that is not in use. -/
def unused : SmallFile := ⟨0, 0, [], 0, 0⟩

/-- The file as inode `i`. -/
def inode (f : SmallFile) (i : Nat) : Dinode where
  type := f.type
  major := f.major
  minor := f.minor
  nlink := f.nlink
  size := f.data.length
  addrs := fun k => if k = 0 ∧ f.data ≠ [] then i + 3 else 0

/-- The fields have the widths they have in C, and one block is enough. -/
def Ok (f : SmallFile) : Prop :=
  f.type < 2 ^ 16 ∧ f.major < 2 ^ 16 ∧ f.minor < 2 ^ 16 ∧ f.nlink < 2 ^ 16 ∧ f.data.length ≤ 512

instance (f : SmallFile) : Decidable f.Ok := inferInstanceAs (Decidable (_ ∧ _))

end SmallFile

/-- Inode `i` of the image. -/
def fileOf (files : List SmallFile) (i : Nat) : SmallFile := files.getD i .unused

def image (files : List SmallFile) (bits : List UInt8) : Disk := fun b =>
  if b = 2 then fun x => ((fileOf files (x / 64)).inode (x / 64)).bytes (x % 64)
  else if b = 3 then fun x => bits.getD x 0
  else fun x => (fileOf files (b - 3)).data.getD x 0

/-- The bytes of a directory. -/
def dirBytes (es : List (List UInt8 × Nat)) : List UInt8 :=
  es.flatMap fun e => Call.putDirent e.2 (Call.strncpy (cstr e.1) 14 0)

section

variable {files : List SmallFile} {bits : List UInt8} {i : Nat}

theorem SmallFile.Ok.fits {f : SmallFile} (h : f.Ok) (hi : i < 8) : (f.inode i).Fits := by
  obtain ⟨htype, hmajor, hminor, hnlink, hlen⟩ := h
  refine ⟨htype, hmajor, hminor, hnlink, lt_of_le_of_lt hlen (by decide), fun k => ?_,
    fun k hk => if_neg fun h => by omega⟩
  show (if k = 0 ∧ f.data ≠ [] then i + 3 else 0) < _
  split_ifs <;> omega

theorem fileOf_ok (hok : ∀ f ∈ files, f.Ok) (i : Nat) : (fileOf files i).Ok := by
  rw [fileOf, List.getD_eq_getElem?_getD]
  cases hget : files[i]? with
  | none => decide
  | some f => exact hok f (List.mem_of_getElem? hget)

theorem dinode_image (hok : ∀ f ∈ files, f.Ok) (hi : i < 8) :
    dinode imageSb (image files bits) i = (fileOf files i).inode i := by
  have hblock : imageSb.iblock i = 2 := by
    show i / 8 + 2 = 2
    omega
  have hput : image files bits 2 = putInode (image files bits 2) i ((fileOf files i).inode i) := by
    funext x
    rw [putInode]
    split_ifs with hx
    · subst hx
      rfl
    · rfl
  rw [dinode, hblock, hput, Nat.mod_eq_of_lt hi]
  exact getInode_putInode _ _ ((fileOf_ok hok i).fits hi)

theorem slotAddr_inode (disk : Disk) (f : SmallFile) (t : Slot) :
    slotAddr disk (f.inode i) t = if t = .addr 0 ∧ f.data ≠ [] then i + 3 else 0 := by
  cases t with
  | addr k =>
    show (if (k : Nat) = 0 ∧ f.data ≠ [] then i + 3 else 0) = _
    exact if_congr (by rw [Fin.val_eq_zero_iff, Slot.addr.injEq]) rfl rfl
  | entry j =>
    have hnone : (f.inode i).addrs 12 = 0 := by simp [SmallFile.inode]
    rw [slotAddr, if_pos hnone, if_neg (by simp)]

/-- A slot that holds a block. -/
def Holds (files : List SmallFile) (o : Nat × Slot) : Prop :=
  (o.1 < 8 ∧ (fileOf files o.1).type ≠ 0) ∧ o.2 = .addr 0 ∧ (fileOf files o.1).data ≠ []

instance (o : Nat × Slot) : Decidable (Holds files o) := inferInstanceAs (Decidable (_ ∧ _))

theorem ownerAddr_image (hok : ∀ f ∈ files, f.Ok) (o : Nat × Slot) :
    ownerAddr imageSb.ninodes (image files bits) (dinode imageSb (image files bits)) o
      = if Holds files o then o.1 + 3 else 0 := by
  have hninodes : imageSb.ninodes = 8 := rfl
  rw [ownerAddr, hninodes]
  by_cases hi : o.1 < 8
  · rw [dinode_image hok hi, slotAddr_inode]
    exact (ite_and ..).symm
  · rw [if_neg fun h => hi h.1, if_neg fun h => hi h.1.1]

/-- The bitmap marks the metadata and the blocks of the files. -/
def MarksFiles (files : List SmallFile) (bits : List UInt8) : Prop :=
  ∀ b < 12, Marked imageSb (image files bits) b ↔ b < 4 ∨ Holds files (b - 3, .addr 0)

instance : Decidable (MarksFiles files bits) := inferInstanceAs (Decidable (∀ _ < _, _))

theorem image_consistent (hok : ∀ f ∈ files, f.Ok) (hfirst : (fileOf files 0).type = 0)
    (hbits : MarksFiles files bits) : Consistent imageSb (image files bits) := by
  have howner : ∀ o, ownerAddr imageSb.ninodes (image files bits) _ o = _ := ownerAddr_image hok
  have hheld : ∀ {o}, ownerAddr imageSb.ninodes (image files bits) (dinode imageSb (image files bits)) o
      ≠ 0 → Holds files o ∧ o.1 ≠ 0 := by
    intro o ho
    rw [howner] at ho
    have hholds : Holds files o := not_not.mp fun hno => ho (if_neg hno)
    exact ⟨hholds, fun hzero => hholds.1.2 (hzero ▸ hfirst)⟩
  refine ⟨⟨⟨by decide, fun o ho => ?_, fun o o' ho heq => ?_, fun b hb => ?_⟩, fun b hb => ?_⟩, ?_⟩
  · obtain ⟨hholds, hpos⟩ := hheld ho
    have hlt := hholds.1.1
    rw [howner, if_pos hholds]
    show 4 ≤ o.1 + 3 ∧ o.1 + 3 < 12
    omega
  · obtain ⟨hholds, -⟩ := hheld ho
    obtain ⟨hholds', -⟩ := hheld (heq ▸ ho)
    rw [howner, howner, if_pos hholds, if_pos hholds'] at heq
    exact Prod.ext (by omega) (hholds.2.1.trans hholds'.2.1.symm)
  · have hlow : 4 ≤ b := hb.1
    rw [hbits b hb.2, or_iff_right (by omega)]
    refine ⟨fun hholds => ⟨_, (howner _).trans ((if_pos hholds).trans ?_)⟩, fun ⟨o, ho⟩ => ?_⟩
    · show b - 3 + 3 = b
      omega
    · obtain ⟨hholds, -⟩ := hheld (o := o) (by omega)
      rw [howner, if_pos hholds] at ho
      have hself : o = (b - 3, .addr 0) := Prod.ext (by show o.1 = b - 3; omega) hholds.2.1
      exact hself ▸ hholds
  · have hlow : b < 4 := hb
    exact (hbits b (by omega)).mpr (.inl hlow)
  · intro i hi htype _ t
    have hlen : (fileOf files i).data.length ≤ 512 := (fileOf_ok hok i).2.2.2.2
    rw [dinode_image hok hi, slotAddr_inode]
    show _ ↔ t.offset < (fileOf files i).data.length
    rw [ne_eq, ite_eq_right_iff, not_forall]
    refine ⟨fun ⟨⟨ht, hdata⟩, _⟩ => ?_, fun hlt => ⟨⟨?_, ?_⟩, by omega⟩⟩
    · rw [ht]
      exact List.length_pos_iff.mpr hdata
    · cases t with
      | addr k =>
        rw [Slot.offset] at hlt
        rw [Slot.addr.injEq, ← Fin.val_eq_zero_iff]
        omega
      | entry j =>
        rw [Slot.offset] at hlt
        omega
    · exact List.ne_nil_of_length_pos (by omega)

end

end Xv6Sharing.Fs
