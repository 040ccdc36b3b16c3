/-
Xv6Sharing.Fs.FileBytes — a file is an array of bytes.

`contents` is the file as a list. `readi` returns a slice of it, and `writei`
puts new bytes in the place of old ones or behind them; what lies in the other
files stays. `writei` needs the blocks that the longer file takes and the one it
had did not, and `readi` needs none.
-/
import Xv6Sharing.Fs.Ownership

namespace Xv6Sharing.Fs

open Lib

variable {sb : Superblock} {devsw : Devsw} {fs : FileSys} {disk disk' : Disk} {ip ip' : Dinode}
  {src : List UInt8} {i off : Nat}

/-- The bytes `old` with `src` in the place of those from `off` on. -/
def overwrite (old src : List UInt8) (off : Nat) : List UInt8 :=
  old.take off ++ src ++ old.drop (off + src.length)

theorem Stored.contents (h : Stored disk ip src off ip.size ip' disk') (hoff : off ≤ ip.size)
    (hsize : ip'.size = max ip.size (off + src.length)) :
    contents disk' ip' = overwrite (Fs.contents disk ip) src off := by
  have htake : ((Fs.contents disk ip).take off).length = off := by
    rw [List.length_take, length_contents, min_eq_left hoff]
  refine List.ext_getElem ?_ fun x hx hx' => ?_
  · simp only [overwrite, List.length_append, htake, List.length_drop, length_contents, hsize]
    omega
  · rw [length_contents, hsize] at hx
    rw [getElem_contents, h x hx]
    simp only [overwrite]
    -- before, in and behind the new bytes
    by_cases hbefore : x < off
    · rw [if_neg (by omega), List.getElem_append_left (by simp; omega),
        List.getElem_append_left (by omega), List.getElem_take, getElem_contents]
    · by_cases hin : x < off + src.length
      · rw [if_pos (by omega), List.getElem_append_left (by simp; omega),
          List.getElem_append_right (by omega)]
        simp only [htake]
        exact (List.getElem_eq_getD 0).symm
      · rw [if_neg (by omega), List.getElem_append_right (by simp; omega), List.getElem_drop,
          getElem_contents, List.length_append, htake]
        congr 1
        omega

theorem SameFile.contents (h : SameFile disk ip disk' ip') :
    contents disk' ip' = Fs.contents disk ip := by
  rw [Fs.contents, Fs.contents, h.size]
  exact List.map_congr_left fun x hx => h.bytes x (List.mem_range.mp hx)

/-- No file is longer than its block map can address. -/
def SizesFit (sb : Superblock) (disk : Disk) : Prop :=
  ∀ j < sb.ninodes, (dinode sb disk j).type ≠ 0 → (dinode sb disk j).type ≠ T_DEV →
    (dinode sb disk j).size ≤ 140 * 512

/-- `readi` of a file that is not too long returns, and leaves everything as it was. -/
theorem readi_run {s : Store} (h : Consistent sb s.disk) (hi : i < sb.ninodes)
    (htype : (dinode sb s.disk i).type ≠ 0) (hdev : (dinode sb s.disk i).type ≠ T_DEV)
    (hsize : (dinode sb s.disk i).size ≤ 140 * 512) {n : Nat} (hn : n < 2 ^ 32) :
    readi sb devsw (dinode sb s.disk i) off n s
      = .ok ((dinode sb s.disk i, readResult s.disk (dinode sb s.disk i) off n), s) := by
  have hread : Spec (fun _ => False) (readi sb devsw (dinode sb s.disk i) off n) s _ :=
    readi_spec h hi htype (fun _ hbig => absurd hbig (by omega)) off hn
  obtain ⟨⟨ip', r⟩, s', hrun, hip, rfl, hr⟩ := hread.total
  have hip : ip' = _ := hip
  have hr : r = _ := hr hdev
  rw [hrun, hip, hr]

/-- `writei` refuses to write `n` bytes at `off`. -/
def Refused (ip : Dinode) (off n : Nat) : Prop :=
  off > ip.size ∨ 2 ^ 32 ≤ off + n ∨ off + n > 140 * 512

instance (ip : Dinode) (off n : Nat) : Decidable (Refused ip off n) :=
  inferInstanceAs (Decidable (_ ∨ _ ∨ _))

end Xv6Sharing.Fs
