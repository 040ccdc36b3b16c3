/-
Xv6Sharing.Fs.SharedFile — processes that write through one `struct file`
(kernel/file.c).

The processes got the same `struct file` by `fork` or `dup`. `filewrite` cuts a
call into chunks; the lock of the inode is held for one chunk, so a chunk is one
step and the calls of the processes interleave chunk by chunk. The rest of the
kernel takes steps of its own on the file system: it reads and updates any inode,
and drops references it holds, which leaves the one of the `struct file`.

The offset is read and advanced under the lock. So it points behind what was
written last, whoever wrote it, and no chunk lands on another.
-/
import Mathlib.Algebra.BigOperators.Group.Finset.Piecewise
import Mathlib.Algebra.Order.BigOperators.Group.Finset
import Xv6Sharing.Fs.Ownership

namespace Xv6Sharing.SharedFile

open Lib Fs

/-! ## The functions of file.c -/

/-- The `struct file` of an inode. -/
structure OpenFile where
  readable : Bool
  writable : Bool
  ip : Nat
  off : Nat

/-- `max` of `filewrite`, from MAXOPBLOCKS. -/
def chunkMax : Nat := (10 - 1 - 1 - 2) / 2 * 512

section

variable (sb : Superblock) (devsw : Devsw)

/-- `fileread`; -1 is `none`. -/
def fileread (f : OpenFile) (n : Nat) : KernM (OpenFile × Option (List UInt8)) :=
  if f.readable = false then return (f, none)
  else do
    ilock sb f.ip
    let r ← onInode f.ip fun ip => readi sb devsw ip f.off n
    match r with
    | none => return (f, none)
    | some bs =>
      return (if 0 < bs.length then { f with off := (f.off + bs.length) % 2 ^ 32 } else f, some bs)

/-- What a round of the loop of `filewrite` does under the lock. -/
def writeChunk (f : OpenFile) (src : List UInt8) : KernM (OpenFile × Int) := do
  ilock sb f.ip
  let r ← onInode f.ip fun ip => writei sb devsw f.ip ip src f.off
  return (if 0 < r then { f with off := (f.off + r.toNat) % 2 ^ 32 } else f, r)

end

/-! ## The machine -/

/-- Where a process is in `filewrite`. -/
inductive Call where
  | idle
  /-- In the loop, at `i`. -/
  | writing (buf : List UInt8) (i : Nat)
  /-- Out of the loop before the end, or never in it: -1 will be returned. -/
  | failed

inductive Event (P : Type) where
  | call (p : P) (buf : List UInt8)
  | chunk (p : P) (src : List UInt8)
  | fail (p : P)
  | ret (p : P) (r : Int)
  | read (p : P) (n : Nat)
  /-- A step of the rest of the kernel. -/
  | other (e : Fs.Event)

structure Machine (P : Type) where
  fs : FileSys
  file : OpenFile
  pc : P → Call

variable {P : Type} [DecidableEq P]

/-- The steps. `n` passed `argptr`, so it is not negative. -/
inductive Step (sb : Superblock) (devsw : Devsw) (m : Machine P) : Event P → Machine P → Prop
  | call {p : P} {buf : List UInt8} : m.pc p = .idle → buf.length < 2 ^ 31 →
      m.file.writable = true →
      Step sb devsw m (.call p buf) { m with pc := Function.update m.pc p (.writing buf 0) }
  | refuse {p : P} {buf : List UInt8} : m.pc p = .idle → buf.length < 2 ^ 31 →
      m.file.writable = false →
      Step sb devsw m (.call p buf) { m with pc := Function.update m.pc p .failed }
  -- a result that is neither negative nor the length is a panic
  | chunk {p : P} {buf src : List UInt8} {i : Nat} {f : OpenFile} {r : Int} {s : FileSys} :
      m.pc p = .writing buf i → i < buf.length → src = (buf.drop i).take chunkMax →
      writeChunk sb devsw m.file src m.fs = .ok ((f, r), s) → r = src.length →
      Step sb devsw m (.chunk p src)
        ⟨s, f, Function.update m.pc p (.writing buf (i + src.length))⟩
  | fail {p : P} {buf : List UInt8} {i : Nat} {f : OpenFile} {r : Int} {s : FileSys} :
      m.pc p = .writing buf i → i < buf.length →
      writeChunk sb devsw m.file ((buf.drop i).take chunkMax) m.fs = .ok ((f, r), s) → r < 0 →
      Step sb devsw m (.fail p) ⟨s, f, Function.update m.pc p .failed⟩
  | ret {p : P} {buf : List UInt8} {i : Nat} : m.pc p = .writing buf i → ¬ i < buf.length →
      Step sb devsw m (.ret p (if i = buf.length then buf.length else -1))
        { m with pc := Function.update m.pc p .idle }
  | retFailed {p : P} : m.pc p = .failed →
      Step sb devsw m (.ret p (-1)) { m with pc := Function.update m.pc p .idle }
  | read {p : P} {n : Nat} {f : OpenFile} {r : Option (List UInt8)} {s : FileSys} :
      m.pc p = .idle → n < 2 ^ 31 → fileread sb devsw m.file n m.fs = .ok ((f, r), s) →
      Step sb devsw m (.read p n) { m with fs := s, file := f }
  | other {e : Fs.Event} {s : FileSys} : Fs.Step sb devsw m.fs e s →
      (e = .iput m.file.ip → 1 < m.fs.ref m.file.ip) →
      Step sb devsw m (.other e) { m with fs := s }

/-- `sys_open` made the `struct file`, writable and for a regular file. -/
structure Opened (sb : Superblock) (devsw : Devsw) (m : Machine P) : Prop where
  reached : Reach (Mounted (Consistent sb)) (Fs.Step sb devsw) (fun _ _ => True) m.fs
  ref : 0 < m.fs.ref m.file.ip
  copy : ∃ ip, m.fs.copy m.file.ip = some ip ∧ ip.type = T_FILE
  off : m.file.off = 0
  writable : m.file.writable = true
  idle : ∀ p, m.pc p = .idle

/-- The file is written through the `struct file` only, and not read through it. -/
def Alone (m : Machine P) : Event P → Prop
  | .read _ _ => False
  | .other e => ∀ src off, e ≠ .writei m.file.ip src off
  | _ => True

/-! ## Before the writes: the offset is within the file -/

section

variable {sb : Superblock} {devsw : Devsw} {m m' : Machine P} {fs : FileSys}

/-- The inode of the file. -/
def Machine.inode (sb : Superblock) (m : Machine P) : Dinode :=
  dinode sb m.fs.store.disk m.file.ip

/-- The file is open and its offset within it. -/
structure Ready (sb : Superblock) (f : OpenFile) (fs : FileSys) : Prop where
  through : WrittenThrough sb fs
  ref : 0 < fs.ref f.ip
  copy : fs.copy f.ip = some (dinode sb fs.store.disk f.ip)
  type : (dinode sb fs.store.disk f.ip).type = T_FILE
  off : f.off ≤ (dinode sb fs.store.disk f.ip).size
  writable : f.writable = true

omit [DecidableEq P] in
theorem Opened.ready (hv : sb.Valid) (h : Opened sb devsw m) : Ready sb m.file m.fs := by
  have hthrough : WrittenThrough sb m.fs := reach_writtenThrough hv h.reached
  obtain ⟨ip, hip, htype⟩ := h.copy
  obtain ⟨rfl, -⟩ := hthrough.cached _ h.ref ip hip
  refine ⟨hthrough, h.ref, hip, htype, ?_, h.writable⟩
  rw [h.off]
  exact Nat.zero_le _

theorem onInode_spec {α : Type} {Err : Panic → Prop} {i : Nat} {ip : Dinode}
    {f : Dinode → FsM (Dinode × α)} {Q : Dinode × α → Store → Prop}
    (hip : fs.copy i = some ip) (h : Spec Err (f ip) fs.store Q) :
    Spec Err (onInode i f) fs fun a fs' => ∃ ip' s, Q (ip', a) s ∧
      fs' = { fs with store := s, copy := Function.update fs.copy i (some ip') } := by
  cases hrun : f ip fs.store with
  | error e =>
    refine Spec.of_error (e := e) ?_ (h.error hrun)
    simp only [onInode, hip, Option.getD_some, hrun]
  | ok p =>
    obtain ⟨⟨ip', a⟩, s⟩ := p
    refine Spec.of_ok (a := a) ?_ ⟨ip', s, h.post hrun, rfl⟩
    simp only [onInode, hip, Option.getD_some, hrun]

theorem ilock_run {i : Nat} {ip : Dinode} (href : 0 < fs.ref i) (hip : fs.copy i = some ip) :
    ilock sb i fs = .ok ((), fs) := by
  rw [ilock, if_neg (by omega), hip]

/-- What `writeChunk` of `src` leaves. -/
structure Chunked (sb : Superblock) (f : OpenFile) (fs : FileSys) (src : List UInt8)
    (r : OpenFile × Int) (fs' : FileSys) : Prop where
  ready : Ready sb r.1 fs'
  ip : r.1.ip = f.ip
  done : f.off + src.length ≤ 140 * 512 →
    r = ({ f with off := f.off + src.length }, (src.length : Int)) ∧
    (dinode sb fs'.store.disk f.ip).size
      = max (dinode sb fs.store.disk f.ip).size (f.off + src.length) ∧
    Stored fs.store.disk (dinode sb fs.store.disk f.ip) src f.off
      (dinode sb fs.store.disk f.ip).size (dinode sb fs'.store.disk f.ip) fs'.store.disk
  refused : ¬ f.off + src.length ≤ 140 * 512 → r = (f, -1)
  room : freeBlocks sb fs'.store.disk + blocksFor (dinode sb fs'.store.disk f.ip).size
    = freeBlocks sb fs.store.disk + blocksFor (dinode sb fs.store.disk f.ip).size

/-- A chunk fails to be written only for lack of free blocks. -/
theorem writeChunk_spec {Err : Panic → Prop} (hv : sb.Valid) {f : OpenFile} (h : Ready sb f fs)
    {src : List UInt8} (hsrc : src.length < 2 ^ 31)
    (hfull : f.off + src.length ≤ 140 * 512 →
      freeBlocks sb fs.store.disk + blocksFor (dinode sb fs.store.disk f.ip).size
        < blocksFor (max (dinode sb fs.store.disk f.ip).size (f.off + src.length)) →
      Err .outOfBlocks) :
    Spec Err (writeChunk sb devsw f src) fs (Chunked sb f fs src) := by
  have hi := h.through.inTable _ h.ref
  have hdev : (dinode sb fs.store.disk f.ip).type ≠ T_DEV := by
    rw [h.type]
    decide
  have htype : (dinode sb fs.store.disk f.ip).type ≠ 0 := by
    rw [h.type]
    decide
  have hwritei : Spec Err
      (writei sb devsw f.ip (dinode sb fs.store.disk f.ip) src f.off) fs.store _ :=
    writei_spec hv h.through.disk hi htype (by omega) f.off fun _ => hfull
  unfold writeChunk
  refine Spec.seq_ok (ilock_run h.ref h.copy) ?_
  refine Spec.seq (onInode_spec h.copy hwritei) ?_
  rintro r fs' ⟨ip', s, ⟨hw, -⟩, rfl⟩
  have hself : dinode sb s.disk f.ip = ip' := by
    rw [hw.inodes _ hi, Function.update_self]
  have hthrough := h.through.replace hi (hw.type ▸ htype) hw.consistent hw.inodes
  have hcopy : Function.update fs.copy f.ip (some ip') f.ip = some (dinode sb s.disk f.ip) := by
    rw [hself, Function.update_self]
  have htype' : (dinode sb s.disk f.ip).type = T_FILE := by
    rw [hself]
    exact hw.type.trans h.type
  have hroom : freeBlocks sb s.disk + blocksFor (dinode sb s.disk f.ip).size = _ :=
    hself.symm ▸ hw.room hdev
  by_cases hfit : f.off + src.length ≤ 140 * 512
  · obtain ⟨hr, hsize, hstored⟩ := hw.bytes hdev h.off hfit
    have hr' : r = src.length := hr
    have hfile : (if 0 < r then { f with off := (f.off + r.toNat) % 2 ^ 32 } else f)
        = { f with off := f.off + src.length } := by
      rw [hr', Int.toNat_natCast, Nat.mod_eq_of_lt (by omega)]
      split
      · rfl
      · have hnil : src.length = 0 := by omega
        rw [hnil, Nat.add_zero]
    rw [hfile]
    refine Spec.pure ⟨⟨hthrough, h.ref, hcopy, htype', ?_, h.writable⟩, rfl, fun _ => ⟨?_, ?_, ?_⟩,
      absurd hfit, hroom⟩
    · show f.off + src.length ≤ (dinode sb s.disk f.ip).size
      rw [hself, hsize]
      exact le_max_right ..
    · rw [hr']
    · rw [hself, hsize]
    · rw [hself]
      exact hstored
  · have hr := hw.refused hdev fun hboth => hfit hboth.2
    have hr' : r = -1 := congrArg Prod.snd hr
    have hip : ip' = dinode sb fs.store.disk f.ip := congrArg Prod.fst hr
    rw [hr', if_neg (by decide)]
    refine Spec.pure ⟨⟨hthrough, h.ref, hcopy, htype', ?_, h.writable⟩, rfl,
      fun hle => absurd hle hfit, fun _ => rfl, hroom⟩
    show f.off ≤ (dinode sb s.disk f.ip).size
    rw [hself, hip]
    exact h.off

theorem writeChunk_chunked (hv : sb.Valid) {f : OpenFile} (h : Ready sb f fs) {src : List UInt8}
    {r : OpenFile × Int} {fs' : FileSys} (hsrc : src.length < 2 ^ 31)
    (hrun : writeChunk sb devsw f src fs = .ok (r, fs')) : Chunked sb f fs src r fs' :=
  (writeChunk_spec hv h hsrc (fun _ _ => trivial) : Spec anyPanic _ _ _).post hrun

/-- `fileread` moves the offset, and not beyond the end. -/
theorem fileread_spec {f : OpenFile} (h : Ready sb f fs) {n : Nat}
    (hn : n < 2 ^ 31) :
    Spec anyPanic (fileread sb devsw f n) fs fun r fs' => Ready sb r.1 fs' := by
  have hi := h.through.inTable _ h.ref
  have hdev : (dinode sb fs.store.disk f.ip).type ≠ T_DEV := by
    rw [h.type]
    decide
  have htype : (dinode sb fs.store.disk f.ip).type ≠ 0 := by
    rw [h.type]
    decide
  unfold fileread
  split
  · exact Spec.pure h
  · refine Spec.seq_ok (ilock_run h.ref h.copy) ?_
    refine Spec.seq (onInode_spec h.copy
      (readi_spec h.through.disk hi htype (fun _ _ => trivial) f.off (by omega))) ?_
    rintro r fs' ⟨ip', s, ⟨hip, hs, hread⟩, rfl⟩
    have hip : ip' = dinode sb fs.store.disk f.ip := hip
    have hfs : { fs with store := s, copy := Function.update fs.copy f.ip (some ip') } = fs := by
      rw [hs, hip, ← h.copy, Function.update_eq_self]
    rw [hfs]
    cases r with
    | none => exact Spec.pure h
    | some bs =>
      have hend := readResult_length (hread hdev).symm
      have hsize := (dinode_fits sb fs.store.disk f.ip).size
      refine Spec.pure ?_
      show Ready sb (if 0 < bs.length then _ else f) _
      split
      · refine ⟨h.through, h.ref, h.copy, h.type, ?_, h.writable⟩
        show (f.off + bs.length) % 2 ^ 32 ≤ (dinode sb fs.store.disk f.ip).size
        rw [Nat.mod_eq_of_lt (by omega)]
        exact hend
      · exact h

/-- A step of the rest of the kernel leaves the file open; unless it writes to it the file has
the contents it had. -/
theorem Ready.other (hv : sb.Valid) {f : OpenFile} {e : Fs.Event} {fs' : FileSys}
    (h : Ready sb f fs) (hs : Fs.Step sb devsw fs e fs') (hused : e = .iput f.ip → 1 < fs.ref f.ip) :
    Ready sb f fs' ∧ ((∃ src off, e = .writei f.ip src off) ∨
      SameFile fs.store.disk (dinode sb fs.store.disk f.ip) fs'.store.disk
        (dinode sb fs'.store.disk f.ip)) := by
  have hthrough := hs.writtenThrough hv h.through
  have hdev : (dinode sb fs.store.disk f.ip).type ≠ T_DEV := by
    rw [h.type]
    decide
  obtain ⟨ip', href, hcopy, htype, hgrows, hsame⟩ := hs.keepsFile hv h.through h.ref h.copy hdev hused
  obtain ⟨rfl, -⟩ := hthrough.cached _ href ip' hcopy
  exact ⟨⟨hthrough, href, hcopy, htype.trans h.type, h.off.trans hgrows, h.writable⟩, hsame⟩

theorem chunk_length_lt {buf src : List UInt8} {i : Nat} (h : src = (buf.drop i).take chunkMax) :
    src.length < 2 ^ 31 := by
  have hmax := List.length_take_le chunkMax (buf.drop i)
  rw [← h] at hmax
  exact hmax.trans_lt (by decide)

theorem Step.ready (hv : sb.Valid) {e : Event P} (h : Ready sb m.file m.fs)
    (hs : Step sb devsw m e m') : Ready sb m'.file m'.fs := by
  cases hs with
  | call => exact h
  | refuse => exact h
  | chunk _ _ hsrc hrun _ => exact (writeChunk_chunked hv h (chunk_length_lt hsrc) hrun).ready
  | fail _ _ hrun _ => exact (writeChunk_chunked hv h (chunk_length_lt rfl) hrun).ready
  | ret => exact h
  | retFailed => exact h
  | read _ hn hrun => exact (fileread_spec h hn).post hrun
  | other hstep hused => exact (h.other hv hstep hused).1

theorem ready_of_reach (hv : sb.Valid)
    (h : Reach (Opened sb devsw) (Step sb devsw) (fun _ _ => True) m) : Ready sb m.file m.fs :=
  Reach.invariant (I := fun m : Machine P => Ready sb m.file m.fs)
    (fun _ hm => hm.ready hv) (fun _ _ _ hm _ hs => hs.ready hv hm) h

end

/-! ## The history of the writes -/

/-- The chunks, in the order in which they took the lock. The last event comes first. -/
def written : List (Event P) → List UInt8
  | [] => []
  | .chunk _ src :: es => written es ++ src
  | _ :: es => written es

/-- The bytes that were asked for. -/
def requested : List (Event P) → Nat
  | [] => 0
  | .call _ buf :: es => requested es + buf.length
  | _ :: es => requested es

/-- The buffer of the call `p` is in, and the chunks it wrote of it. -/
def ongoing (p : P) : List (Event P) → Option (List UInt8 × List UInt8)
  | [] => none
  | .call q buf :: es => if q = p then some (buf, []) else ongoing p es
  | .chunk q src :: es =>
    if q = p then (ongoing p es).map fun c => (c.1, c.2 ++ src) else ongoing p es
  | .ret q _ :: es => if q = p then none else ongoing p es
  | _ :: es => ongoing p es

/-- The bytes a call has to write yet. -/
def Call.left : Call → Nat
  | .writing buf i => buf.length - i
  | _ => 0

/-- A call is at `i` when the chunks it wrote are the first `i` bytes. -/
def Call.Tells : Call → Option (List UInt8 × List UInt8) → Prop
  | .idle, c => c = none
  | .writing buf i, c => i ≤ buf.length ∧ buf.length < 2 ^ 31 ∧ c = some (buf, buf.take i)
  | .failed, _ => False

/-- Every call that returned wrote its buffer, and returned its length. -/
def Returned (es : List (Event P)) : Prop :=
  ∀ p (r : Int) es', .ret p r :: es' <:+ es → ∃ buf, ongoing p es' = some (buf, buf) ∧ r = buf.length

section

variable [Fintype P] {sb : Superblock} {devsw : Devsw} {m₀ m m' : Machine P} {es : List (Event P)}

/-- The writes since `m₀`. -/
structure Appended (sb : Superblock) (m₀ : Machine P) (es : List (Event P)) (m : Machine P) :
    Prop where
  ready : Ready sb m.file m.fs
  ip : m.file.ip = m₀.file.ip
  off : m.file.off = m₀.file.off + (written es).length
  size : (m.inode sb).size = max (m₀.inode sb).size m.file.off
  bytes : ∀ x < (m.inode sb).size, fileByte m.fs.store.disk (m.inode sb) x
    = if m₀.file.off ≤ x ∧ x < m.file.off then (written es).getD (x - m₀.file.off) 0
      else fileByte m₀.fs.store.disk (m₀.inode sb) x
  account : (written es).length + ∑ p, (m.pc p).left = requested es
  calls : ∀ p, (m.pc p).Tells (ongoing p es)
  returned : Returned es

/-- A process moves on; the others stay where they are. -/
theorem sum_left_update (pc : P → Call) (p : P) (c : Call) :
    ∑ q, (Function.update pc p c q).left + (pc p).left = ∑ q, (pc q).left + c.left := by
  have hsum := Finset.sum_update_of_mem (Finset.mem_univ p) (fun q => (pc q).left) c.left
  have hself := Finset.add_sum_erase Finset.univ (fun q => (pc q).left) (Finset.mem_univ p)
  have hfun : (fun q => (Function.update pc p c q).left)
      = Function.update (fun q => (pc q).left) p c.left := by
    funext q
    by_cases hq : q = p
    · rw [hq, Function.update_self, Function.update_self]
    · rw [Function.update_of_ne hq, Function.update_of_ne hq]
  rw [hfun, hsum, ← hself, Finset.sdiff_singleton_eq_erase]
  omega

omit [DecidableEq P] in
theorem left_le_sum (pc : P → Call) (p : P) : (pc p).left ≤ ∑ q, (pc q).left :=
  Finset.single_le_sum (f := fun q => (pc q).left) (fun _ _ => Nat.zero_le _) (Finset.mem_univ p)

omit [Fintype P] in
theorem tells_update {pc : P → Call} {p : P} {c : Call} {e : Event P}
    (h : ∀ q, (pc q).Tells (ongoing q es)) (hself : c.Tells (ongoing p (e :: es)))
    (hother : ∀ q, p ≠ q → ongoing q (e :: es) = ongoing q es) (q : P) :
    (Function.update pc p c q).Tells (ongoing q (e :: es)) := by
  by_cases hq : q = p
  · rw [hq, Function.update_self]
    exact hself
  · rw [Function.update_of_ne hq, hother q (Ne.symm hq)]
    exact h q

omit [Fintype P] in
theorem Returned.cons {e : Event P} (h : Returned es)
    (he : ∀ p (r : Int), e = .ret p r → ∃ buf, ongoing p es = some (buf, buf) ∧ r = buf.length) :
    Returned (e :: es) := by
  intro p r es' hsuffix
  rcases List.suffix_cons_iff.mp hsuffix with heq | hsuffix
  · obtain ⟨rfl, rfl⟩ := List.cons.inj heq
    exact he p r rfl
  · exact h p r es' hsuffix

theorem Appended.left_fits (h : Appended sb m₀ es m)
    (hfit : m₀.file.off + requested es ≤ 140 * 512) {p : P} {buf : List UInt8} {i : Nat}
    (hpc : m.pc p = .writing buf i) : m.file.off + (buf.length - i) ≤ 140 * 512 := by
  have hleft := left_le_sum m.pc p
  rw [hpc, Call.left] at hleft
  have haccount := h.account
  have hoff := h.off
  omega

theorem Appended.chunk (h : Appended sb m₀ es m) {p : P} {buf src : List UInt8} {i : Nat}
    {r : OpenFile × Int} {s : FileSys} (hpc : m.pc p = .writing buf i)
    (hsrc : src = (buf.drop i).take chunkMax) (hw : Chunked sb m.file m.fs src r s)
    (hfits : m.file.off + src.length ≤ 140 * 512) :
    Appended sb m₀ (.chunk p src :: es)
      ⟨s, r.1, Function.update m.pc p (.writing buf (i + src.length))⟩ := by
  obtain ⟨hr, hsize, hstored⟩ := hw.done hfits
  have hready := hw.ready
  rw [hr] at hready ⊢
  have hoff := h.off
  have hsize₁ : (dinode sb m.fs.store.disk m.file.ip).size = max (m₀.inode sb).size m.file.off :=
    h.size
  have hlen : src.length = min chunkMax (buf.length - i) := by
    rw [hsrc, List.length_take, List.length_drop]
  obtain ⟨hi, hbuf, hongoing⟩ : (Call.writing buf i).Tells (ongoing p es) := hpc ▸ h.calls p
  refine ⟨hready, h.ip, ?_, ?_, fun x hx => ?_, ?_, tells_update h.calls ⟨?_, hbuf, ?_⟩ ?_,
    h.returned.cons nofun⟩
  · show m.file.off + src.length = m₀.file.off + (written es ++ src).length
    rw [List.length_append]
    omega
  · show (dinode sb s.store.disk m.file.ip).size = max _ (m.file.off + src.length)
    omega
  · show fileByte s.store.disk (dinode sb s.store.disk m.file.ip) x
      = if m₀.file.off ≤ x ∧ x < m.file.off + src.length
        then (written es ++ src).getD (x - m₀.file.off) 0 else _
    have hx' : x < (dinode sb s.store.disk m.file.ip).size := hx
    rw [hstored x (by omega)]
    by_cases hnew : m.file.off ≤ x ∧ x < m.file.off + src.length
    · rw [if_pos hnew, if_pos ⟨by omega, hnew.2⟩, List.getD_append_right _ _ _ _ (by omega)]
      congr 1
      omega
    · rw [if_neg hnew]
      refine (h.bytes x (show x < (dinode sb m.fs.store.disk m.file.ip).size by omega)).trans ?_
      by_cases hin : m₀.file.off ≤ x ∧ x < m.file.off
      · rw [if_pos hin, if_pos ⟨hin.1, by omega⟩, List.getD_append _ _ _ _ (by omega)]
      · rw [if_neg hin, if_neg (by omega)]
  · have hsum := sum_left_update m.pc p (.writing buf (i + src.length))
    have haccount := h.account
    have hleft : (m.pc p).left = buf.length - i := by
      rw [hpc, Call.left]
    have hleft' : (Call.writing buf (i + src.length)).left = buf.length - (i + src.length) := rfl
    show (written es ++ src).length + ∑ q, (Function.update m.pc p _ q).left = requested es
    rw [List.length_append]
    omega
  · omega
  · show (if p = p then (ongoing p es).map fun c => (c.1, c.2 ++ src) else _) = _
    have htake : src = (buf.drop i).take src.length :=
      List.prefix_iff_eq_take.mp (hsrc ▸ List.take_prefix ..)
    rw [if_pos rfl, hongoing, Option.map_some, List.take_add, ← htake]
  · intro q hq
    exact if_neg hq

theorem Step.appended (hv : sb.Valid) {e : Event P} (h : Appended sb m₀ es m) (halone : Alone m e)
    (hfit : m₀.file.off + requested (e :: es) ≤ 140 * 512) (hs : Step sb devsw m e m') :
    Appended sb m₀ (e :: es) m' := by
  cases hs with
  | @call p buf hpc hbuf _ =>
    refine ⟨h.ready, h.ip, h.off, h.size, h.bytes, ?_,
      tells_update h.calls ⟨Nat.zero_le _, hbuf, if_pos rfl⟩ fun q hq => if_neg hq,
      h.returned.cons nofun⟩
    have hsum := sum_left_update m.pc p (.writing buf 0)
    have hleft : (m.pc p).left = 0 := by
      rw [hpc]
      rfl
    have hleft' : (Call.writing buf 0).left = buf.length := rfl
    have haccount := h.account
    show (written es).length + ∑ q, (Function.update m.pc p _ q).left = requested es + buf.length
    omega
  | refuse _ _ hno =>
    rw [h.ready.writable] at hno
    cases hno
  | @chunk p buf src i f r s hpc hi hsrc hrun _ =>
    have hleft := h.left_fits hfit hpc
    have hlen : src.length ≤ buf.length - i := by
      rw [hsrc, List.length_take, List.length_drop]
      exact min_le_right ..
    exact h.chunk hpc hsrc
      (writeChunk_chunked hv h.ready (chunk_length_lt hsrc) hrun) (by omega)
  | @fail p buf i f r s hpc hi hrun hneg =>
    -- there is room for the chunk
    have hleft := h.left_fits hfit hpc
    have hlen : ((buf.drop i).take chunkMax).length ≤ buf.length - i := by
      rw [List.length_take, List.length_drop]
      exact min_le_right ..
    obtain ⟨hr, -⟩ := (writeChunk_chunked hv h.ready (chunk_length_lt rfl) hrun).done (by omega)
    have hr' : r = _ := congrArg Prod.snd hr
    omega
  | @ret p buf i hpc hi =>
    obtain ⟨hle, -, hongoing⟩ : (Call.writing buf i).Tells (ongoing p es) := hpc ▸ h.calls p
    have hend : i = buf.length := by omega
    subst hend
    refine ⟨h.ready, h.ip, h.off, h.size, h.bytes, ?_,
      tells_update h.calls (if_pos rfl) fun q hq => if_neg hq, h.returned.cons ?_⟩
    · have hsum := sum_left_update m.pc p .idle
      have hleft : (m.pc p).left = 0 := by
        rw [hpc, Call.left, Nat.sub_self]
      have hleft' : Call.idle.left = 0 := rfl
      have haccount := h.account
      show (written es).length + ∑ q, (Function.update m.pc p _ q).left = requested es
      omega
    · intro q r hret
      obtain ⟨rfl, rfl⟩ := Event.ret.inj hret
      rw [List.take_length] at hongoing
      exact ⟨buf, hongoing, if_pos rfl⟩
  | @retFailed p hpc =>
    have hno : Call.failed.Tells (ongoing p es) := hpc ▸ h.calls p
    exact hno.elim
  | read => exact halone.elim
  | @other e s hstep hused =>
    obtain ⟨hready, hsame⟩ := h.ready.other hv hstep hused
    rcases hsame with ⟨src, off, heq⟩ | hsame
    · exact absurd heq (halone src off)
    · refine ⟨hready, h.ip, h.off, hsame.size.trans h.size, fun x hx => ?_, h.account, h.calls,
        h.returned.cons nofun⟩
      have hx' : x < (m.inode sb).size := hx.trans_eq hsame.size
      exact (hsame.bytes x hx').trans (h.bytes x hx')

omit [DecidableEq P] [Fintype P] in
theorem requested_le (e : Event P) (es : List (Event P)) : requested es ≤ requested (e :: es) := by
  cases e <;> simp [requested]

theorem appended_of_trace (hv : sb.Valid) (hready : Ready sb m₀.file m₀.fs)
    (hidle : ∀ p, m₀.pc p = .idle) (h : Trace (· = m₀) (Step sb devsw) Alone es m)
    (hfit : m₀.file.off + requested es ≤ 140 * 512) : Appended sb m₀ es m := by
  refine Trace.invariant (J := fun es m => m₀.file.off + requested es ≤ 140 * 512 →
    Appended sb m₀ es m) ?_ ?_ h hfit
  · rintro m rfl -
    refine ⟨hready, rfl, rfl, (max_eq_left hready.off).symm, fun x _ => ?_, ?_, fun p => ?_, ?_⟩
    · rw [if_neg (by omega)]
    · simp [hidle, Call.left, written, requested]
    · rw [hidle p]
      exact rfl
    · intro p r es' hsuffix
      cases List.suffix_nil.mp hsuffix
  · intro es m e m' hm halone hs hfit
    have hle := requested_le e es
    exact hs.appended hv (hm (by omega)) halone hfit

omit [Fintype P] in
/-- A call at `i` returns its length, or writes some more, or the disk is full. -/
def GoesOn (sb : Superblock) (devsw : Devsw) (m : Machine P) (p : P) (buf : List UInt8) (i : Nat) :
    Prop :=
  i = buf.length ∧ (∃ m', Step sb devsw m (.ret p buf.length) m') ∨
  (∃ src m', src ≠ [] ∧ Step sb devsw m (.chunk p src) m' ∧
    m'.pc p = .writing buf (i + src.length)) ∨
  writeChunk sb devsw m.file ((buf.drop i).take chunkMax) m.fs = .error .outOfBlocks

/-- What the writes since `m₀` have done. -/
structure NoWriteLost (sb : Superblock) (devsw : Devsw) (m₀ : Machine P) (es : List (Event P))
    (m : Machine P) : Prop where
  contents : ((List.range (written es).length).map fun x =>
    fileByte m.fs.store.disk (m.inode sb) (m₀.file.off + x)) = written es
  rest : ∀ x < (m₀.inode sb).size, x < m₀.file.off ∨ m₀.file.off + (written es).length ≤ x →
    fileByte m.fs.store.disk (m.inode sb) x = fileByte m₀.fs.store.disk (m₀.inode sb) x
  size : (m.inode sb).size = max (m₀.inode sb).size (m₀.file.off + (written es).length)
  offset : m.file.off = m₀.file.off + (written es).length
  calls : ∀ p buf i, m.pc p = .writing buf i → ongoing p es = some (buf, buf.take i)
  returned : Returned es
  finished : (∀ p, m.pc p = .idle) → m.file.off = m₀.file.off + requested es
  goesOn : ∀ p buf i, m.pc p = .writing buf i → GoesOn sb devsw m p buf i

theorem Appended.goesOn (hv : sb.Valid) (h : Appended sb m₀ es m)
    (hfit : m₀.file.off + requested es ≤ 140 * 512) {p : P} {buf : List UInt8} {i : Nat}
    (hpc : m.pc p = .writing buf i) : GoesOn sb devsw m p buf i := by
  obtain ⟨hle, -, -⟩ : (Call.writing buf i).Tells (ongoing p es) := hpc ▸ h.calls p
  by_cases hi : i < buf.length
  · right
    have hleft := h.left_fits hfit hpc
    have hlen : ((buf.drop i).take chunkMax).length = min chunkMax (buf.length - i) := by
      rw [List.length_take, List.length_drop]
    have hpos : 0 < chunkMax := by decide
    have hw : Spec (· = .outOfBlocks) (writeChunk sb devsw m.file ((buf.drop i).take chunkMax)) m.fs _ :=
      writeChunk_spec hv h.ready (chunk_length_lt rfl) fun _ _ => rfl
    cases hrun : writeChunk sb devsw m.file ((buf.drop i).take chunkMax) m.fs with
    | error e =>
      right
      rw [hw.error hrun]
    | ok out =>
      obtain ⟨⟨f, r⟩, s⟩ := out
      obtain ⟨hr, -⟩ := (hw.post hrun).done (by omega)
      refine .inl ⟨_, _, ?_, .chunk hpc hi rfl hrun (congrArg Prod.snd hr), ?_⟩
      · rw [← List.length_pos_iff]
        omega
      · exact Function.update_self ..
  · left
    have hend : i = buf.length := by omega
    have hstep : Step sb devsw m _ _ := .ret hpc hi
    rw [if_pos hend] at hstep
    exact ⟨hend, _, hstep⟩

end

/-- The file of ten bytes, opened. -/
def smallOpened : Machine Bool where
  fs :=
    let fs := FileSys.iget ⟨⟨smallDisk 4 31, []⟩, fun _ => none, fun _ => 0⟩ 1
    { fs with copy := Function.update fs.copy 1 (some (dinode smallSb fs.store.disk 1)) }
  file := ⟨true, true, 1, 0⟩
  pc := fun _ => .idle

theorem smallOpened_opened : Opened smallSb noDevices smallOpened := by
  have htype : (dinode smallSb (smallDisk 4 31) 1).type = T_FILE := by decide
  have h₀ : Reach (Mounted (Consistent smallSb)) (Fs.Step smallSb noDevices) (fun _ _ => True)
      ⟨⟨smallDisk 4 31, []⟩, fun _ => none, fun _ => 0⟩ :=
    .base ⟨smallDisk_consistent, fun _ => rfl⟩
  have h₁ := Reach.next (a := Fs.Event.iget 1) h₀ trivial (.iget (by decide))
  have h₂ := Reach.next (a := Fs.Event.ilock 1) h₁ trivial (.ilock (by decide) rfl (by decide))
  exact ⟨h₂, by decide, ⟨_, rfl, htype⟩, rfl, rfl, fun _ => rfl⟩

end Xv6Sharing.SharedFile
