/-
Xv6Sharing.Fs.FileWrite — the transactions of `filewrite` (kernel/file.c).

`filewrite` writes a buffer in chunks of at most 1536 bytes, each in a transaction of
its own. Here the blocks passed to `log_write` are kept by transaction. Whatever the
disk holds, a chunk reaches four blocks of the file at most, and with them the block
of the bitmap, the indirect block and that of the inode; a disk with an image of one
bitmap block is assumed, as mkfs makes it.

What `filewrite` returns follows from the chunks one by one: each is written whole
when it ends within the largest file, and only a disk without free blocks stops it.
-/
import Xv6Sharing.Fs.SharedFile

namespace Xv6Sharing.SharedFile

open Lib Fs

/-! ## filewrite -/

/-- `begin_op`; the transaction has no blocks yet. -/
def beginOp : KernM Unit := fun fs => .ok ((), { fs with store := ⟨fs.store.disk, []⟩ })

/-- `end_op`; returns the blocks of the transaction. -/
def endOp : KernM (List Nat) := fun fs => .ok (fs.store.logged, fs)

section

variable (sb : Superblock) (devsw : Devsw)

/-- A round of the loop, up to `end_op`. -/
def chunkOp (f : OpenFile) (src : List UInt8) : KernM ((OpenFile × Int) × List Nat) := do
  beginOp
  let r ← writeChunk sb devsw f src
  let blocks ← endOp
  return (r, blocks)

/-- The loop, at `i`; `ops` are the transactions. Every round writes at least one byte. -/
def filewriteFrom (buf : List UInt8) :
    Nat → OpenFile → Nat → List (List Nat) → KernM (OpenFile × Nat × List (List Nat))
  | 0, f, i, ops => return (f, i, ops)
  | fuel + 1, f, i, ops =>
    if i < buf.length then do
      let ((f, r), blocks) ← chunkOp sb devsw f ((buf.drop i).take chunkMax)
      if r < 0 then return (f, i, ops ++ [blocks])
      else if r ≠ ((buf.drop i).take chunkMax).length then throw .shortWrite
      else filewriteFrom buf fuel f (i + r.toNat) (ops ++ [blocks])
    else return (f, i, ops)

/-- `filewrite` of the file of an inode. -/
def filewrite (f : OpenFile) (buf : List UInt8) : KernM (OpenFile × Int × List (List Nat)) :=
  if f.writable = false then return (f, -1, [])
  else do
    let (f, i, ops) ← filewriteFrom sb devsw buf buf.length f 0 []
    return (f, if i = buf.length then (buf.length : Int) else -1, ops)

end

/-! ## The blocks of a transaction -/

section

variable {sb : Superblock} {devsw : Devsw} {s : Store} {ip : Dinode} {fs : FileSys}

/-- `balloc` logs the bitmap and the block that it clears. -/
theorem balloc_logged (hone : sb.size ≤ 4096) : Spec anyPanic (balloc sb) s fun b s' =>
    s'.logged = b :: sb.bmapstart :: s.logged := by
  rw [balloc, ballocFrom]
  by_cases hpos : 0 < sb.size
  · rw [if_pos hpos]
    refine Spec.seq_ok (m := bread _) rfl ?_
    cases scanBits sb (s.disk (sb.bblock 0)) 0 4096 0 with
    | none =>
      -- there is no second block of the bitmap
      cases sb.size / 4096 with
      | zero => exact Spec.throw trivial
      | succ n =>
        dsimp only
        rw [ballocFrom, if_neg (by omega)]
        exact Spec.throw trivial
    | some bi =>
      refine Spec.of_ok (a := 0 + bi) rfl ?_
      show (0 + bi) :: sb.bblock 0 :: s.logged = _
      rw [Superblock.bblock, Nat.zero_div, Nat.zero_add sb.bmapstart]
  · rw [if_neg hpos]
    exact Spec.throw trivial

/-- What `bmapAddr` and `bmap` leave of the addresses in the inode. -/
def KeepsAddrs (ip ip' : Dinode) : Prop := ∀ k, ip.addrs k ≠ 0 → ip'.addrs k = ip.addrs k

theorem bmapAddr_logged (hone : sb.size ≤ 4096) (k : Nat) :
    Spec anyPanic (bmapAddr sb ip k) s fun ip' s' => KeepsAddrs ip ip' ∧
      ∀ x ∈ s'.logged, x ∈ s.logged ∨ x = sb.bmapstart ∨ x = ip'.addrs k := by
  unfold bmapAddr
  by_cases h0 : ip.addrs k = 0
  · rw [if_pos h0]
    refine Spec.seq (balloc_logged hone) fun b s' hlog => Spec.pure ⟨fun j hj => ?_, fun x hx => ?_⟩
    · have hne : j ≠ k := fun heq => hj (heq ▸ h0)
      exact Function.update_of_ne hne ..
    · rw [hlog] at hx
      have hself : (ip.setAddr k b).addrs k = b := Function.update_self ..
      rw [hself]
      simp only [List.mem_cons] at hx
      tauto
  · rw [if_neg h0]
    exact Spec.pure ⟨fun _ _ => rfl, fun x hx => .inl hx⟩

theorem bmapEntry_logged (hone : sb.size ≤ 4096) (j : Nat) :
    Spec anyPanic (bmapEntry sb ip j) s fun addr s' =>
      ∀ x ∈ s'.logged, x ∈ s.logged ∨ x = sb.bmapstart ∨ x = ip.addrs 12 ∨ x = addr := by
  unfold bmapEntry
  refine Spec.seq_ok (m := bread _) rfl ?_
  by_cases h0 : read32 (s.disk (ip.addrs 12)) (4 * j) = 0
  · rw [if_pos h0]
    refine Spec.seq (balloc_logged hone) fun b s' hlog => ?_
    refine Spec.of_ok (a := b) rfl fun x hx => ?_
    have hx : x ∈ ip.addrs 12 :: s'.logged := hx
    rw [hlog] at hx
    simp only [List.mem_cons] at hx
    tauto
  · rw [if_neg h0]
    exact Spec.pure fun x hx => .inl hx

theorem bmap_logged (hone : sb.size ≤ 4096) (bn : Nat) :
    Spec anyPanic (bmap sb ip bn) s fun r s' => KeepsAddrs ip r.1 ∧
      ∀ x ∈ s'.logged, x ∈ s.logged ∨ x = sb.bmapstart ∨ x = r.1.addrs 12 ∨ x = r.2 := by
  unfold bmap
  by_cases hdir : bn < 12
  · rw [if_pos hdir]
    refine Spec.seq (bmapAddr_logged hone bn) fun ip' s' ⟨hkeeps, hlog⟩ =>
      Spec.pure ⟨hkeeps, fun x hx => ?_⟩
    exact (hlog x hx).imp_right (Or.imp_right .inr)
  · rw [if_neg hdir]
    by_cases hind : bn - 12 < 128
    · rw [if_pos hind]
      refine Spec.seq (bmapAddr_logged hone 12) fun ip' s' ⟨hkeeps, hlog⟩ => ?_
      refine Spec.seq (bmapEntry_logged hone (bn - 12)) fun addr s'' hlog' =>
        Spec.pure ⟨hkeeps, fun x hx => ?_⟩
      rcases hlog' x hx with hx | hx
      · exact (hlog x hx).imp_right (Or.imp_right .inl)
      · exact .inr hx
    · rw [if_neg hind]
      exact Spec.throw trivial

/-- The number of blocks of a file in which `len` bytes from `off` on lie. -/
def touched (off len : Nat) : Nat := if len = 0 then 0 else (off + len - 1) / 512 - off / 512 + 1

theorem touched_succ {off len m : Nat} (hlen : len ≠ 0) (hm : m = min len (512 - off % 512)) :
    touched off len = touched (off + m) (len - m) + 1 := by
  unfold touched
  rw [if_neg hlen]
  split <;> omega

/-- The blocks of the file that a loop writes to are few; the rest is metadata. An address that is 0
is counted apart, since nothing is known of the disk. -/
theorem writeLoop_logged (hone : sb.size ≤ 4096) (fuel : Nat) {src : List UInt8} {off : Nat} :
    Spec anyPanic (writeLoop sb fuel ip src off) s fun ip' s' => KeepsAddrs ip ip' ∧
      ∃ data : Finset Nat, data.card ≤ touched off src.length ∧
        ∀ x ∈ s'.logged, x ∈ s.logged ∨ x ∈ data ∨ x ∈ ({sb.bmapstart, 0, ip'.addrs 12} : Finset Nat) := by
  induction fuel generalizing ip s src off with
  | zero => exact Spec.pure ⟨fun _ _ => rfl, ∅, Nat.zero_le _, fun x hx => .inl hx⟩
  | succ fuel ih =>
    unfold writeLoop
    by_cases hnil : src = []
    · rw [if_pos hnil]
      exact Spec.pure ⟨fun _ _ => rfl, ∅, Nat.zero_le _, fun x hx => .inl hx⟩
    · rw [if_neg hnil]
      refine Spec.seq (bmap_logged hone (off / 512)) ?_
      rintro ⟨ip₁, addr⟩ s₁ ⟨hkeeps, hlog⟩
      refine Spec.seq_ok (m := bread addr) rfl ?_
      generalize hm : min src.length (512 - off % 512) = m
      refine Spec.seq_ok (m := logWrite addr _) rfl ?_
      refine Spec.mono ih ?_
      rintro ip₂ s₂ ⟨hkeeps', data, hcard, hlog'⟩
      refine ⟨fun k hk => ?_, insert addr data, ?_, fun x hx => ?_⟩
      · rw [hkeeps' k (by rwa [hkeeps k hk]), hkeeps k hk]
      · have hlen : src.length ≠ 0 := fun heq => hnil (List.length_eq_zero_iff.mp heq)
        rw [touched_succ hlen hm.symm]
        rw [List.length_drop] at hcard
        exact (Finset.card_insert_le addr data).trans (Nat.succ_le_succ hcard)
      · have hind : ip₁.addrs 12 = 0 ∨ ip₁.addrs 12 = ip₂.addrs 12 :=
          or_iff_not_imp_left.mpr fun hne => (hkeeps' 12 hne).symm
        simp only [Finset.mem_insert, Finset.mem_singleton] at hlog' ⊢
        rcases hlog' x hx with hx | hx | hx
        · rcases List.mem_cons.mp hx with rfl | hx
          · exact .inr (.inl (.inl rfl))
          · rcases hlog x hx with hx | hx | hx | hx
            · exact .inl hx
            · exact .inr (.inr (.inl hx))
            · rcases hind with h0 | hsame
              · exact .inr (.inr (.inr (.inl (hx.trans h0))))
              · exact .inr (.inr (.inr (.inr (hx.trans hsame))))
            · exact .inr (.inl (.inl hx))
        · exact .inr (.inl (.inr hx))
        · exact .inr (.inr hx)

theorem writei_logged (hone : sb.size ≤ 4096) (i : Nat) {src : List UInt8} {off : Nat} :
    Spec anyPanic (writei sb devsw i ip src off) s fun _ s' =>
      ∃ blocks : Finset Nat, blocks.card ≤ touched off src.length + 4 ∧
        ∀ x ∈ s'.logged, x ∈ s.logged ∨ x ∈ blocks := by
  unfold writei
  split_ifs
  · exact Spec.pure ⟨∅, Nat.zero_le _, fun x hx => .inl hx⟩
  · exact Spec.pure ⟨∅, Nat.zero_le _, fun x hx => .inl hx⟩
  · exact Spec.pure ⟨∅, Nat.zero_le _, fun x hx => .inl hx⟩
  · refine Spec.seq (writeLoop_logged hone _) ?_
    rintro ip' s' ⟨-, data, hcard, hlog⟩
    have hmeta : ({sb.iblock i, sb.bmapstart, 0, ip'.addrs 12} : Finset Nat).card ≤ 4 :=
      Finset.card_le_four
    have hall : (data ∪ {sb.iblock i, sb.bmapstart, 0, ip'.addrs 12}).card
        ≤ touched off src.length + 4 :=
      (Finset.card_union_le ..).trans (Nat.add_le_add hcard hmeta)
    have hlog : ∀ x ∈ s'.logged, x ∈ s.logged ∨
        x ∈ data ∪ {sb.iblock i, sb.bmapstart, 0, ip'.addrs 12} := by
      intro x hx
      rcases hlog x hx with hx | hx | hx
      · exact .inl hx
      · exact .inr (Finset.mem_union_left _ hx)
      · exact .inr (Finset.mem_union_right _ (Finset.mem_insert_of_mem hx))
    split_ifs
    · refine Spec.of_ok rfl ⟨_, hall, fun x hx => ?_⟩
      rcases List.mem_cons.mp hx with rfl | hx
      · exact .inr (Finset.mem_union_right _ (Finset.mem_insert_self ..))
      · exact hlog x hx
    · exact Spec.pure ⟨_, hall, hlog⟩

/-- Code on an inode, whatever the cache holds of it. -/
theorem onInode_any {α : Type} {Err : Panic → Prop} {i : Nat} {f : Dinode → FsM (Dinode × α)}
    {Q : Store → Prop} (h : ∀ ip, Spec Err (f ip) fs.store fun _ s => Q s) :
    Spec Err (onInode i f) fs fun _ fs' => Q fs'.store := by
  unfold Spec onInode
  have hip := h ((fs.copy i).getD (zeroInode 0))
  unfold Spec at hip
  cases hrun : f ((fs.copy i).getD (zeroInode 0)) fs.store with
  | error e =>
    rw [hrun] at hip
    exact hip
  | ok p =>
    rw [hrun] at hip
    exact hip

/-- `ilock` only reads. -/
theorem ilock_store {i : Nat} : Spec anyPanic (ilock sb i) fs fun _ fs' => fs'.store = fs.store := by
  unfold Spec ilock
  by_cases href : fs.ref i < 1
  · rw [if_pos href]
    trivial
  · rw [if_neg href]
    cases fs.copy i with
    | some ip => rfl
    | none =>
      by_cases htype : (dinode sb fs.store.disk i).type = 0
      · simp only [if_pos htype]
        trivial
      · simp only [if_neg htype]

/-- No chunk makes a transaction too large, whatever it starts from. -/
theorem chunkOp_logged (hone : sb.size ≤ 4096) {f : OpenFile} {src : List UInt8}
    (hsrc : src.length ≤ chunkMax) :
    Spec anyPanic (chunkOp sb devsw f src) fs fun r _ => r.2.toFinset.card ≤ 10 := by
  unfold chunkOp
  refine Spec.seq_ok (m := beginOp) rfl ?_
  have hwrite : Spec anyPanic (writeChunk sb devsw f src)
      { fs with store := ⟨fs.store.disk, []⟩ } fun _ fs' =>
        ∃ blocks : Finset Nat, blocks.card ≤ touched f.off src.length + 4 ∧
          ∀ x ∈ fs'.store.logged, x ∈ blocks := by
    unfold writeChunk
    refine Spec.seq ilock_store fun _ fs₁ hstore => ?_
    refine Spec.seq (onInode_any fun ip => writei_logged hone f.ip) fun r fs₂ hlog => Spec.pure ?_
    obtain ⟨blocks, hcard, hlog⟩ := hlog
    refine ⟨blocks, hcard, fun x hx => (hlog x hx).resolve_left ?_⟩
    rw [hstore]
    exact List.not_mem_nil
  refine Spec.seq hwrite fun r fs₁ hlog => Spec.of_ok rfl ?_
  obtain ⟨blocks, hcard, hlog⟩ := hlog
  have hmax : touched f.off src.length ≤ 4 := by
    have hchunk : src.length ≤ 1536 := hsrc
    unfold touched
    split <;> omega
  have hsub : fs₁.store.logged.toFinset ⊆ blocks := fun x hx => hlog x (List.mem_toFinset.mp hx)
  exact (Finset.card_le_card hsub).trans (by omega)

end

/-! ## What filewrite returns -/

/-- The file is a regular one, and open. -/
structure IsOpen (sb : Superblock) (f : OpenFile) (fs : FileSys) : Prop where
  through : WrittenThrough sb fs
  ref : 0 < fs.ref f.ip
  copy : fs.copy f.ip = some (dinode sb fs.store.disk f.ip)
  type : (dinode sb fs.store.disk f.ip).type = T_FILE

/-- Where the chunks of `n` bytes from `off` on end: behind them all, or behind the last one that
ends within the largest file. -/
def chunksEnd (off n : Nat) : Nat :=
  if off + n ≤ 140 * 512 then off + n else off + (140 * 512 - off) / chunkMax * chunkMax

/-- Where `filewrite` of `n` bytes to a file of `size` bytes ends. -/
def writeEnd (f : OpenFile) (size n : Nat) : Nat :=
  if f.writable = false ∨ size < f.off then 0 else chunksEnd f.off n

/-- There are blocks for a file that ends at `e`. -/
def HasRoom (sb : Superblock) (disk : Disk) (ip : Dinode) (e : Nat) : Prop :=
  blocksFor (max ip.size e) ≤ freeBlocks sb disk + blocksFor ip.size

/-- What `filewrite` of `n` bytes returns. -/
def writeResult (f : OpenFile) (size n : Nat) : Int :=
  if f.writable = true ∧ (n = 0 ∨ f.off ≤ size ∧ f.off + n ≤ 140 * 512) then n else -1

/-- The bytes `src` are in the file, at the offset, and the offset is behind them. -/
def Wrote (sb : Superblock) (f : OpenFile) (fs : FileSys) (src : List UInt8) (f' : OpenFile)
    (fs' : FileSys) : Prop :=
  f'.off = f.off + src.length ∧
    Stored fs.store.disk (dinode sb fs.store.disk f.ip) src f.off
      (dinode sb fs.store.disk f.ip).size (dinode sb fs'.store.disk f.ip) fs'.store.disk

/-- The panic for want of free blocks. -/
def IsFull (sb : Superblock) (disk : Disk) (ip : Dinode) (e : Nat) (p : Panic) : Prop :=
  p = .outOfBlocks ∧ ¬ HasRoom sb disk ip e

instance (sb : Superblock) (disk : Disk) (ip : Dinode) (e : Nat) : Decidable (HasRoom sb disk ip e) :=
  inferInstanceAs (Decidable (_ ≤ _))

section

variable {sb : Superblock} {devsw : Devsw} {fs : FileSys} {f : OpenFile}

theorem wrote_nil (f : OpenFile) (fs : FileSys) : Wrote sb f fs [] f fs :=
  ⟨rfl, fun x _ => (if_neg (by rw [List.length_nil]; omega)).symm⟩

theorem Wrote.append {src rest : List UInt8} {f₂ : OpenFile} {fs₁ fs₂ : FileSys}
    (hsize : (dinode sb fs₁.store.disk f.ip).size
      = max (dinode sb fs.store.disk f.ip).size (f.off + src.length))
    (h : Stored fs.store.disk (dinode sb fs.store.disk f.ip) src f.off
      (dinode sb fs.store.disk f.ip).size (dinode sb fs₁.store.disk f.ip) fs₁.store.disk)
    (h' : Wrote sb { f with off := f.off + src.length } fs₁ rest f₂ fs₂) :
    Wrote sb f fs (src ++ rest) f₂ fs₂ := by
  obtain ⟨hoff, hstored⟩ := h'
  refine ⟨by rw [hoff, List.length_append, Nat.add_assoc], fun x hx => ?_⟩
  rw [List.length_append] at hx ⊢
  dsimp only at hstored
  rw [hstored x (by rw [hsize]; omega)]
  by_cases hrest : f.off + src.length ≤ x ∧ x < f.off + src.length + rest.length
  · rw [if_pos hrest, if_pos (by omega), List.getD_append_right _ _ _ _ (by omega)]
    congr 1
    omega
  · rw [if_neg hrest, h x (by omega)]
    by_cases hsrc : f.off ≤ x ∧ x < f.off + src.length
    · rw [if_pos hsrc, if_pos (by omega), List.getD_append _ _ _ _ (by omega)]
    · rw [if_neg hsrc, if_neg (by omega)]

theorem chunksEnd_zero (off : Nat) : chunksEnd off 0 = off := by
  have hchunk : chunkMax = 1536 := rfl
  unfold chunksEnd
  rw [hchunk]
  split <;> omega

theorem chunksEnd_chunk {off n m : Nat} (hm : m = min chunkMax n) (hfit : off + m ≤ 140 * 512) :
    chunksEnd (off + m) (n - m) = chunksEnd off n ∧ off + m ≤ chunksEnd off n := by
  have hchunk : chunkMax = 1536 := rfl
  unfold chunksEnd
  rw [hchunk] at hm ⊢
  split <;> split <;> omega

theorem chunksEnd_refused {off n m : Nat} (hm : m = min chunkMax n) (hbig : ¬ off + m ≤ 140 * 512) :
    chunksEnd off n = off := by
  have hchunk : chunkMax = 1536 := rfl
  unfold chunksEnd
  rw [hchunk] at hm ⊢
  split <;> omega

theorem hasRoom_of_le {disk : Disk} {ip : Dinode} {e : Nat} (h : e ≤ ip.size) :
    HasRoom sb disk ip e := by
  rw [HasRoom, Nat.max_eq_left h]
  exact Nat.le_add_left ..

theorem HasRoom.mono {disk : Disk} {ip : Dinode} {e e' : Nat} (h : HasRoom sb disk ip e')
    (hle : e ≤ e') : HasRoom sb disk ip e :=
  (blocksFor_mono (max_le_max_left ip.size hle)).trans h

theorem chunkOp_spec {Err : Panic → Prop} (hv : sb.Valid) (h : Ready sb f fs) {src : List UInt8}
    (hsrc : src.length < 2 ^ 31)
    (hfull : f.off + src.length ≤ 140 * 512 →
      ¬ HasRoom sb fs.store.disk (dinode sb fs.store.disk f.ip) (f.off + src.length) →
      Err .outOfBlocks) :
    Spec Err (chunkOp sb devsw f src) fs fun r fs' => Chunked sb f fs src r.1 fs' := by
  have hready : Ready sb f { fs with store := ⟨fs.store.disk, []⟩ } :=
    ⟨⟨h.through.disk, h.through.inTable, h.through.cached⟩, h.ref, h.copy, h.type, h.off, h.writable⟩
  unfold chunkOp
  refine Spec.seq_ok (m := beginOp) rfl ?_
  refine Spec.seq (writeChunk_spec hv hready hsrc fun hle hfew => hfull hle (not_le.mpr hfew)) ?_
  intro r fs' hc
  exact Spec.of_ok rfl ⟨hc.ready, hc.ip, hc.done, hc.refused, hc.room⟩

/-- A chunk that was written takes the blocks that it needs and no others. -/
theorem Chunked.hasRoom {src : List UInt8} {r : OpenFile × Int} {fs' : FileSys} {e : Nat}
    (hc : Chunked sb f fs src r fs') (hfit : f.off + src.length ≤ 140 * 512)
    (hle : f.off + src.length ≤ e) :
    HasRoom sb fs'.store.disk (dinode sb fs'.store.disk f.ip) e ↔
      HasRoom sb fs.store.disk (dinode sb fs.store.disk f.ip) e := by
  obtain ⟨-, hsize, -⟩ := hc.done hfit
  have hmax : max (dinode sb fs'.store.disk f.ip).size e
      = max (dinode sb fs.store.disk f.ip).size e := by
    rw [hsize]
    omega
  rw [HasRoom, HasRoom, hmax, hc.room]

/-- What the loop leaves that started at `i`. -/
structure Looped (sb : Superblock) (f : OpenFile) (fs : FileSys) (buf : List UInt8) (i : Nat)
    (r : OpenFile × Nat × List (List Nat)) (fs' : FileSys) : Prop where
  all : r.2.1 = buf.length ↔ i = buf.length ∨ f.off + (buf.length - i) ≤ 140 * 512
  room : HasRoom sb fs.store.disk (dinode sb fs.store.disk f.ip) (chunksEnd f.off (buf.length - i))
  wrote : r.2.1 = buf.length → Wrote sb f fs (buf.drop i) r.1 fs'
  small : ∀ blocks ∈ r.2.2, blocks.toFinset.card ≤ 10

theorem looped_end {buf : List UInt8} {i : Nat} {ops : List (List Nat)} (h : Ready sb f fs)
    (hlast : i = buf.length) (hops : ∀ blocks ∈ ops, blocks.toFinset.card ≤ 10) :
    Looped sb f fs buf i (f, i, ops) fs := by
  refine ⟨iff_of_true hlast (.inl hlast), ?_, fun _ => ?_, hops⟩
  · rw [hlast, Nat.sub_self, chunksEnd_zero]
    exact hasRoom_of_le h.off
  · rw [hlast, List.drop_length]
    exact wrote_nil f fs

/-- The loop from `i` on: where it ends, and that only a lack of blocks stops it before. -/
theorem filewriteFrom_spec (hv : sb.Valid) (hone : sb.size ≤ 4096) {buf : List UInt8} {fuel i : Nat}
    {ops : List (List Nat)} (h : Ready sb f fs) (hbuf : buf.length < 2 ^ 31) (hi : i ≤ buf.length)
    (hfuel : buf.length - i ≤ fuel) (hops : ∀ blocks ∈ ops, blocks.toFinset.card ≤ 10) :
    Spec (IsFull sb fs.store.disk (dinode sb fs.store.disk f.ip)
        (chunksEnd f.off (buf.length - i)))
      (filewriteFrom sb devsw buf fuel f i ops) fs (Looped sb f fs buf i) := by
  induction fuel generalizing f fs i ops with
  | zero => exact Spec.pure (looped_end h (by omega) hops)
  | succ fuel ih =>
    unfold filewriteFrom
    by_cases hlt : i < buf.length
    · rw [if_pos hlt]
      have hlen : ((buf.drop i).take chunkMax).length = min chunkMax (buf.length - i) := by
        rw [List.length_take, List.length_drop]
      have hmax : ((buf.drop i).take chunkMax).length ≤ chunkMax := List.length_take_le ..
      have hsplit := List.prefix_iff_eq_append.mp (List.take_prefix chunkMax (buf.drop i))
      rw [List.drop_drop] at hsplit
      have hpos : 0 < chunkMax := by decide
      generalize (buf.drop i).take chunkMax = src at hlen hmax hsplit ⊢
      have hchunk : Spec (IsFull sb fs.store.disk (dinode sb fs.store.disk f.ip)
          (chunksEnd f.off (buf.length - i))) (chunkOp sb devsw f src) fs _ :=
        chunkOp_spec hv h (by omega : src.length < 2 ^ 31) fun hfit hfew =>
          ⟨rfl, fun hroom => hfew (hroom.mono (chunksEnd_chunk hlen hfit).2)⟩
      refine Spec.seq (hchunk.and (chunkOp_logged hone hmax)) ?_
      rintro ⟨⟨f', r⟩, blocks⟩ fs' ⟨hc, hblocks⟩
      have hops' : ∀ b ∈ ops ++ [blocks], b.toFinset.card ≤ 10 := by
        rw [List.forall_mem_append, List.forall_mem_singleton]
        exact ⟨hops, hblocks⟩
      by_cases hfit : f.off + src.length ≤ 140 * 512
      · obtain ⟨hr, hsize, hstored⟩ := hc.done hfit
        obtain ⟨rfl, rfl⟩ := Prod.mk.inj hr
        obtain ⟨hend, hle⟩ := chunksEnd_chunk hlen hfit
        have hsame := hc.hasRoom hfit hle
        have hnext : buf.length - (i + src.length) = buf.length - i - src.length := by omega
        have hoff : f.off + src.length + (buf.length - i - src.length)
            = f.off + (buf.length - i) := by omega
        dsimp only
        rw [if_neg (by omega), if_neg (not_not.mpr rfl), Int.toNat_natCast]
        have hrest := ih hc.ready (by omega : i + src.length ≤ buf.length) (by omega) hops'
        rw [hnext, hend] at hrest
        refine (hrest.weaken fun p hp => ⟨hp.1, fun hroom => hp.2 (hsame.mpr hroom)⟩).mono ?_
        intro r fs'' hl
        have hroom := hl.room
        have hall := hl.all
        dsimp only at hroom hall
        rw [hnext, hend] at hroom
        rw [hnext, hoff] at hall
        refine ⟨hall.trans (by omega), hsame.mp hroom, fun hr => ?_, hl.small⟩
        rw [← hsplit]
        exact Wrote.append hsize hstored (hl.wrote hr)
      · obtain ⟨rfl, rfl⟩ := Prod.mk.inj (hc.refused hfit)
        dsimp only
        rw [if_pos (by decide)]
        have hlast : i ≠ buf.length := by omega
        refine Spec.pure ⟨iff_of_false hlast (by omega), ?_, fun hall => absurd hall hlast, hops'⟩
        rw [chunksEnd_refused hlen hfit]
        exact hasRoom_of_le h.off
    · rw [if_neg hlt]
      exact Spec.pure (looped_end h (by omega) hops)

/-- A file whose offset is behind its end, which no open file has. -/
theorem chunkOp_behind (h : IsOpen sb f fs)
    (hbehind : (dinode sb fs.store.disk f.ip).size < f.off) (src : List UInt8) :
    Spec (fun _ => False) (chunkOp sb devsw f src) fs fun r _ => r = ((f, -1), []) := by
  have hdev : (dinode sb fs.store.disk f.ip).type ≠ T_DEV := by
    rw [h.type]
    decide
  have hwritei : Spec (fun _ => False) (writei sb devsw f.ip (dinode sb fs.store.disk f.ip) src f.off)
      ⟨fs.store.disk, []⟩ fun r s => r.2 = -1 ∧ s.logged = [] := by
    rw [writei, if_neg hdev, if_pos (.inl hbehind)]
    exact Spec.pure ⟨rfl, rfl⟩
  have hcopy : FileSys.copy { fs with store := ⟨fs.store.disk, []⟩ } f.ip = some _ := h.copy
  have hwrite : Spec (fun _ => False) (writeChunk sb devsw f src)
      { fs with store := ⟨fs.store.disk, []⟩ } fun r fs' => r = (f, -1) ∧ fs'.store.logged = [] := by
    unfold writeChunk
    refine Spec.seq_ok (ilock_run h.ref hcopy) ?_
    refine Spec.seq (onInode_spec hcopy hwritei) ?_
    rintro r fs' ⟨ip', s, ⟨hr, hlog⟩, rfl⟩
    have hr : r = -1 := hr
    rw [hr]
    exact Spec.pure ⟨rfl, hlog⟩
  unfold chunkOp
  refine Spec.seq_ok (m := beginOp) rfl (Spec.seq hwrite ?_)
  rintro r fs' ⟨rfl, hlog⟩
  refine Spec.of_ok rfl ?_
  rw [hlog]

/-- What `filewrite` of `buf` leaves when it returns. -/
structure Returns (sb : Superblock) (f : OpenFile) (fs : FileSys) (buf : List UInt8)
    (r : OpenFile × Int × List (List Nat)) (fs' : FileSys) : Prop where
  result : r.2.1 = writeResult f (dinode sb fs.store.disk f.ip).size buf.length
  wrote : r.2.1 = buf.length → Wrote sb f fs buf r.1 fs'
  small : ∀ blocks ∈ r.2.2, blocks.toFinset.card ≤ 10

theorem filewrite_spec (hv : sb.Valid) (hone : sb.size ≤ 4096) (h : IsOpen sb f fs)
    {buf : List UInt8} (hbuf : buf.length < 2 ^ 31) :
    Spec (IsFull sb fs.store.disk (dinode sb fs.store.disk f.ip)
        (writeEnd f (dinode sb fs.store.disk f.ip).size buf.length))
      (filewrite sb devsw f buf) fs fun r fs' =>
        HasRoom sb fs.store.disk (dinode sb fs.store.disk f.ip)
          (writeEnd f (dinode sb fs.store.disk f.ip).size buf.length) ∧
        Returns sb f fs buf r fs' := by
  have hnothing : HasRoom sb fs.store.disk (dinode sb fs.store.disk f.ip) 0 :=
    hasRoom_of_le (Nat.zero_le _)
  unfold filewrite writeEnd
  by_cases hro : f.writable = false
  · rw [if_pos hro, if_pos (.inl hro)]
    refine Spec.pure ⟨hnothing, ⟨(if_neg ?_).symm, fun hneg => ?_, nofun⟩⟩
    · rw [hro]
      simp
    · have hneg : (-1 : Int) = buf.length := hneg
      omega
  · have hwritable : f.writable = true := eq_true_of_ne_false hro
    rw [if_neg hro]
    by_cases hbehind : (dinode sb fs.store.disk f.ip).size < f.off
    · rw [if_pos (.inr hbehind)]
      cases buf with
      | nil =>
        refine Spec.of_ok (a := (f, 0, [])) rfl ⟨hnothing, ⟨?_, fun _ => wrote_nil f fs, nofun⟩⟩
        exact (if_pos ⟨hwritable, .inl rfl⟩).symm
      | cons b bs =>
        have hloop : Spec (fun _ => False)
            (filewriteFrom sb devsw (b :: bs) (bs.length + 1) f 0 []) fs fun r _ =>
              r = (f, 0, [[]]) := by
          rw [filewriteFrom, if_pos (show 0 < (b :: bs).length from Nat.succ_pos _)]
          refine Spec.seq (chunkOp_behind h hbehind _) ?_
          rintro r fs' rfl
          exact Spec.pure rfl
        refine Spec.seq (hloop.weaken fun _ => False.elim) ?_
        rintro r fs' rfl
        refine Spec.pure ⟨hnothing, ⟨(if_neg ?_).symm, fun hneg => ?_, ?_⟩⟩
        · rw [List.length_cons]
          omega
        · have hneg : (-1 : Int) = (b :: bs).length := hneg
          omega
        · exact (List.forall_mem_singleton ..).mpr (Nat.zero_le _)
    · have hoff := not_lt.mp hbehind
      have hready : Ready sb f fs := ⟨h.through, h.ref, h.copy, h.type, hoff, hwritable⟩
      have hchunks : ¬ (f.writable = false ∨ (dinode sb fs.store.disk f.ip).size < f.off) :=
        not_or.mpr ⟨hro, hbehind⟩
      rw [if_neg hchunks]
      have hloop : Spec _ (filewriteFrom sb devsw buf buf.length f 0 []) fs _ :=
        filewriteFrom_spec hv hone hready hbuf (Nat.zero_le _) (Nat.sub_le ..) (List.forall_mem_nil _)
      refine Spec.seq hloop ?_
      rintro ⟨f', i, ops⟩ fs' hl
      refine Spec.pure ⟨hl.room, ⟨if_congr (hl.all.trans ?_) rfl rfl, fun hr => hl.wrote ?_, hl.small⟩⟩
      · rw [Nat.sub_zero]
        constructor
        · rintro (hnil | hfit)
          · exact ⟨hwritable, .inl hnil.symm⟩
          · exact ⟨hwritable, .inr ⟨hoff, hfit⟩⟩
        · rintro ⟨-, hnil | ⟨-, hfit⟩⟩
          · exact .inl hnil.symm
          · exact .inr hfit
      · by_contra hne
        have hr : (if i = buf.length then (buf.length : Int) else -1) = buf.length := hr
        rw [if_neg hne] at hr
        omega

/-- Every transaction is small enough. With enough free blocks the call returns, the length or -1 as
the bytes end within the largest file or not; without them it ends in a panic. -/
theorem filewrite_fits (devsw : Devsw) (hv : sb.Valid) (hone : sb.size ≤ 4096) (h : IsOpen sb f fs)
    (buf : List UInt8) (hbuf : buf.length < 2 ^ 31) :
    (∀ f' src fs' r blocks fs'', src.length ≤ chunkMax →
      chunkOp sb devsw f' src fs' = .ok ((r, blocks), fs'') → blocks.toFinset.card ≤ 10) ∧
    (HasRoom sb fs.store.disk (dinode sb fs.store.disk f.ip)
        (writeEnd f (dinode sb fs.store.disk f.ip).size buf.length) →
      ∃ r fs', filewrite sb devsw f buf fs = .ok (r, fs') ∧ Returns sb f fs buf r fs') ∧
    (¬ HasRoom sb fs.store.disk (dinode sb fs.store.disk f.ip)
        (writeEnd f (dinode sb fs.store.disk f.ip).size buf.length) →
      filewrite sb devsw f buf fs = .error .outOfBlocks) := by
  have hspec : Spec _ (filewrite sb devsw f buf) fs _ := filewrite_spec hv hone h hbuf
  refine ⟨fun f' src fs' r blocks fs'' hsrc hrun => (chunkOp_logged hone hsrc).post hrun, fun hroom => ?_,
    fun hfew => ?_⟩
  · cases hrun : filewrite sb devsw f buf fs with
    | error p => exact absurd hroom (hspec.error hrun).2
    | ok out => exact ⟨out.1, out.2, rfl, (hspec.post hrun).2⟩
  · cases hrun : filewrite sb devsw f buf fs with
    | error p => rw [(hspec.error hrun).1]
    | ok out => exact absurd (hspec.post hrun).1 hfew

/-- The file of ten bytes on the disk of six blocks, one of them free, open at its end. -/
def smallFs : FileSys :=
  ⟨⟨smallDisk 4 31, []⟩, Function.update (fun _ => none) 1 (some (smallFile 4)),
    Function.update (fun _ => 0) 1 1⟩

def smallOpen : OpenFile := ⟨true, true, 1, 10⟩

theorem smallFs_inode : dinode smallSb smallFs.store.disk smallOpen.ip = smallFile 4 :=
  (dinode_small rfl (by decide)).1

theorem smallFs_open : IsOpen smallSb smallOpen smallFs := by
  have hone : ∀ i, 0 < smallFs.ref i → i = 1 := by
    intro i hi
    by_contra hne
    have hzero : Function.update (fun _ => 0) 1 1 i = 0 := Function.update_of_ne hne ..
    exact absurd hi (not_lt.mpr (Nat.le_of_eq hzero))
  have hcopy : smallFs.copy 1 = some (smallFile 4) := rfl
  refine ⟨⟨smallDisk_consistent, fun i hi => ?_, fun i hi ip hip => ?_⟩, Nat.one_pos, ?_, ?_⟩
  · rw [hone i hi]
    decide
  · obtain rfl := hone i hi
    rw [hcopy] at hip
    cases hip
    exact ⟨smallFs_inode.symm, show T_FILE ≠ 0 by decide⟩
  · rw [smallFs_inode]
    exact hcopy
  · rw [smallFs_inode]
    rfl

theorem filewrite_fits_small : ∃ r fs', filewrite smallSb noDevices smallOpen [1, 2, 3] smallFs
    = .ok (r, fs') ∧ Returns smallSb smallOpen smallFs [1, 2, 3] r fs' := by
  have hroom : HasRoom smallSb smallFs.store.disk
      (dinode smallSb smallFs.store.disk smallOpen.ip)
      (writeEnd smallOpen (dinode smallSb smallFs.store.disk smallOpen.ip).size 3) := by
    rw [smallFs_inode]
    decide +kernel
  exact (filewrite_fits noDevices smallSb_valid (by decide) smallFs_open [1, 2, 3]
    (by decide)).2.1 hroom

/-- Two more blocks than there are. -/
theorem filewrite_out_of_blocks : smallSb.Valid ∧ smallSb.size ≤ 4096 ∧
    IsOpen smallSb smallOpen smallFs ∧ smallOpen.off + 1024 ≤ 140 * 512 ∧
    filewrite smallSb noDevices smallOpen (List.replicate 1024 0) smallFs = .error .outOfBlocks := by
  refine ⟨smallSb_valid, by decide, smallFs_open, by decide, ?_⟩
  have hspec : Spec _ (filewrite smallSb noDevices smallOpen (List.replicate 1024 0)) smallFs _ :=
    filewrite_spec smallSb_valid (by decide) smallFs_open (by rw [List.length_replicate]; decide)
  rw [smallFs_inode, List.length_replicate] at hspec
  have hfew : ¬ HasRoom smallSb smallFs.store.disk (smallFile 4)
      (writeEnd smallOpen (smallFile 4).size 1024) := by decide +kernel
  cases hrun : filewrite smallSb noDevices smallOpen (List.replicate 1024 0) smallFs with
  | error p => rw [(hspec.error hrun).1]
  | ok out => exact absurd (hspec.post hrun).1 hfew

end

end Xv6Sharing.SharedFile
