/-
Xv6Sharing.Fs.DirectoryMap — a directory is a finite map (kernel/fs.c).

Processes take the lock of a directory in turn; the one that has it looks names up,
adds names, and clears the entry that it has looked up. The rest of the kernel goes
on meanwhile. In every state the table has no name twice, so it is the map from names
to inode numbers, and the calls are the operations of that map.

The calls have a price that the map does not show. `dirlookup` needs an entry of the
inode cache for what it finds, and `dirlink` also waits for the lock of what it finds:
a process that holds that lock, such as that of the directory itself, waits for good.
A name that is new needs a slot, and a block for it.
-/
import Xv6Sharing.Fs.SmallImage

namespace Xv6Sharing.DirectoryMap

open Lib Fs

/-! ## The machine -/

/-- `holder` are the locks that the process has which holds that of the directory, apart from that;
`found` is what its last `dirlookup` reported: the name, and the offset of its entry. -/
structure State where
  fs : FileSys
  holder : Option (List Nat)
  found : Option (List UInt8 × Nat)

inductive Act where
  | lock (others : List Nat)
  | unlock
  | dirlookup (name : List UInt8)
  | dirlink (name : List UInt8) (inum : Nat)
  | clear
  /-- The process that holds the lock takes others, or releases them. -/
  | relock (others : List Nat)
  /-- A step of the rest of the kernel. -/
  | other (e : Fs.Event)

section

variable (sb : Superblock) (devsw : Devsw) (dp : Nat)

/-- The number of an inode, as a `struct dirent` keeps it. -/
def IsInum (inum : Nat) : Prop := 0 < inum ∧ inum < 2 ^ 16 ∧ inum < sb.ninodes

/-- The steps. Directories are written by `dirlink` and `sys_unlink` only, and the directory is not
freed: whoever holds its lock has a reference. -/
inductive Step (s : State) : Act → State → Prop
  | lock {others : List Nat} {c : Call.Caller} : s.holder = none → dp ∉ others →
      Call.ilock sb dp ⟨s.fs, others⟩ = .ok ((), c) →
      Step s (.lock others) ⟨c.fs, some others, none⟩
  | unlock {others : List Nat} {c : Call.Caller} : s.holder = some others →
      Call.iunlock dp ⟨s.fs, dp :: others⟩ = .ok ((), c) → Step s .unlock ⟨c.fs, none, none⟩
  | dirlookup {others : List Nat} {name : List UInt8} {r : Option (Nat × Nat)} {c : Call.Caller} :
      s.holder = some others →
      Call.onFs (dirlookup sb devsw dp name) ⟨s.fs, dp :: others⟩ = .ok (r, c) →
      Step s (.dirlookup name) ⟨c.fs, some others, r.map fun r => (key (cstr name), r.2)⟩
  | dirlink {others : List Nat} {name : List UInt8} {inum : Nat} {r : Int} {c : Call.Caller} :
      s.holder = some others → IsInum sb inum →
      Call.dirlink sb devsw dp name inum ⟨s.fs, dp :: others⟩ = .ok (r, c) →
      Step s (.dirlink name inum) ⟨c.fs, some others, s.found⟩
  | clear {others : List Nat} {k : List UInt8} {off : Nat} {c : Call.Caller} :
      s.holder = some others → s.found = some (k, off) →
      Call.clearEntry sb devsw dp off ⟨s.fs, dp :: others⟩ = .ok ((), c) →
      Step s .clear ⟨c.fs, some others, none⟩
  | relock {others others' : List Nat} : s.holder = some others → dp ∉ others' →
      Step s (.relock others') { s with holder := some others' }
  | other {e : Fs.Event} {fs : FileSys} : Fs.Step sb devsw s.fs e fs →
      (∀ src off, e ≠ .writei dp src off) → (e = .iput dp → ∀ ip, ¬ s.fs.Frees dp ip) →
      (e = .iput dp → s.holder ≠ none → 1 < s.fs.ref dp) → Step s (.other e) { s with fs }

end

/-- The entries of the directory. -/
def State.table (sb : Superblock) (dp : Nat) (s : State) : SlotTable (List UInt8) Nat :=
  entries s.fs.store.disk (dinode sb s.fs.store.disk dp)

/-- The directory has no name twice and is not locked. -/
structure Init (sb : Superblock) (dp : Nat) (s : State) : Prop where
  through : WrittenThrough sb s.fs
  dir : DirOk sb s.fs.store.disk dp
  unique : (s.table sb dp).Unique
  holder : s.holder = none
  found : s.found = none

/-! ## The invariant -/

structure Sane (sb : Superblock) (dp : Nat) (s : State) : Prop where
  through : WrittenThrough sb s.fs
  dir : DirOk sb s.fs.store.disk dp
  unique : (s.table sb dp).Unique
  held : s.holder ≠ none → Loaded sb s.fs dp
  found : ∀ k off, s.found = some (k, off) →
    ∃ j inum, off = 16 * j ∧ (s.table sb dp)[j]? = some (some (k, inum))

section

variable {sb : Superblock} {devsw : Devsw} {dp : Nat} {s s' : State} {others : List Nat}

theorem Sane.lock (h : Sane sb dp s) {c : Call.Caller} (hnew : dp ∉ others)
    (hrun : Call.ilock sb dp ⟨s.fs, others⟩ = .ok ((), c)) : Sane sb dp ⟨c.fs, some others, none⟩ := by
  obtain ⟨htype, -⟩ := h.dir.type_ne
  have href : 0 < s.fs.ref dp := by
    by_contra hzero
    have hpanic : Call.ilock sb dp ⟨s.fs, others⟩ = .error (.panic .badLock) :=
      if_pos (Nat.lt_one_iff.mpr (Nat.eq_zero_of_not_pos hzero))
    cases hpanic.symm.trans hrun
  have hload : Call.ilock sb dp ⟨s.fs, others⟩ = _ := Call.ilock_eq h.through href hnew
  rw [if_neg htype] at hload
  cases hload.symm.trans hrun
  exact ⟨h.through.load htype, h.dir, h.unique, fun _ => .load href, nofun⟩

theorem Sane.dirlookup (h : Sane sb dp s) (hheld : s.holder = some others) {name : List UInt8}
    {r : Option (Nat × Nat)} {c : Call.Caller}
    (hrun : Call.onFs (dirlookup sb devsw dp name) ⟨s.fs, dp :: others⟩ = .ok (r, c)) :
    Sane sb dp ⟨c.fs, some others, r.map fun r => (key (cstr name), r.2)⟩ := by
  have hl : Loaded sb s.fs dp := h.held (hheld ▸ nofun)
  have hlookup : Fs.dirlookup sb devsw dp name s.fs = _ := dirlookup_run h.through h.dir hl name
  cases hfind : SlotTable.find (key (cstr name)) (s.table sb dp) with
  | none =>
    have hnone : reported sb none s.fs = .ok (none, s.fs) := rfl
    rw [show entries _ _ = s.table sb dp from rfl, hfind] at hlookup
    cases (Call.onFs_ok (hlookup.trans hnone)).symm.trans hrun
    exact ⟨h.through, h.dir, h.unique, fun _ => hl, nofun⟩
  | some p =>
    obtain ⟨j, inum⟩ := p
    rw [show entries _ _ = s.table sb dp from rfl, hfind, reported_some] at hlookup
    by_cases hget : CanGet sb s.fs inum
    · rw [if_pos hget] at hlookup
      cases (Call.onFs_ok hlookup).symm.trans hrun
      obtain ⟨href, hcopy⟩ := FileSys.iget_held inum hl.ref hl.copy
      refine ⟨h.through.iget (h.dir.lookup hfind), h.dir, h.unique, fun _ => ⟨href, hcopy⟩, ?_⟩
      rintro k off heq
      cases heq
      exact ⟨j, inum, rfl, SlotTable.getElem?_of_find hfind⟩
    · rw [if_neg hget] at hlookup
      cases (Call.onFs_error hlookup).symm.trans hrun

theorem Sane.dirlink (hv : sb.Valid) (h : Sane sb dp s) (hheld : s.holder = some others)
    {name : List UInt8} {inum : Nat} (hinum : IsInum sb inum) {r : Int} {c : Call.Caller}
    (hrun : Call.dirlink sb devsw dp name inum ⟨s.fs, dp :: others⟩ = .ok (r, c)) :
    Sane sb dp ⟨c.fs, some others, s.found⟩ := by
  have hl : Loaded sb s.fs dp := h.held (hheld ▸ nofun)
  cases hfind : SlotTable.find (key (cstr name)) (s.table sb dp) with
  | none =>
    obtain ⟨rfl, -, hfit, hw, hput⟩ := (Call.dirlink_absent hv h.through h.dir hl hfind hinum.1
      hinum.2.1 rfl (fun _ => trivial) (fun _ _ => trivial) :
        Spec (fun _ => True) _ (⟨s.fs, dp :: others⟩ : Call.Caller) _).post hrun
    have hentry := entryAt_put hinum.1 hinum.2.1 hw.bytes
    have hput : State.table sb dp ⟨c.fs, some others, s.found⟩
        = (s.table sb dp).put (key (cstr name)) inum := hput
    refine ⟨hw.through, hw.dirOk h.dir hfit ?_, ?_, fun _ => hw.loaded, fun k off hfound => ?_⟩
    · rw [hentry]
      rintro e he
      cases he
      exact hinum.2.2
    · rw [hput]
      exact h.unique.put (by rw [SlotTable.lookup, hfind]; rfl) inum
    · obtain ⟨j, i, hoff, hslot⟩ := h.found k off hfound
      rw [hput]
      exact ⟨j, i, hoff, SlotTable.getElem?_put hslot⟩
  | some p =>
    obtain ⟨j, i⟩ := p
    have hlink : Call.dirlink sb devsw dp name inum ⟨s.fs, dp :: others⟩ = _ :=
      Call.dirlink_present (c := ⟨s.fs, dp :: others⟩) h.through h.dir hl hfind inum
    split_ifs at hlink
    · cases hlink.symm.trans hrun
    · cases hlink.symm.trans hrun
      exact ⟨h.through.glanced i, h.dir, h.unique, fun _ => hl.glanced i, h.found⟩
    · cases hlink.symm.trans hrun

theorem Sane.clear (hv : sb.Valid) (h : Sane sb dp s) (hheld : s.holder = some others)
    {k : List UInt8} {off : Nat} (hfound : s.found = some (k, off)) {c : Call.Caller}
    (hrun : Call.clearEntry sb devsw dp off ⟨s.fs, dp :: others⟩ = .ok ((), c)) :
    Sane sb dp ⟨c.fs, some others, none⟩ := by
  have hl : Loaded sb s.fs dp := h.held (hheld ▸ nofun)
  obtain ⟨j, inum, rfl, hslot⟩ := h.found k off hfound
  obtain ⟨hj, -⟩ := List.getElem?_eq_some_iff.mp hslot
  obtain ⟨-, hw, hset⟩ := (Call.clearEntry_spec hv h.through h.dir hl hj :
    Spec (fun _ => False) _ (⟨s.fs, dp :: others⟩ : Call.Caller) _).post hrun
  have hset : State.table sb dp ⟨c.fs, some others, none⟩ = (s.table sb dp).set j none := hset
  refine ⟨hw.through, hw.dirOk h.dir ?_ ?_, ?_, fun _ => hw.loaded, nofun⟩
  · have hlen : j < _ := length_entries.symm.trans_ge hj
    have hfits := h.dir.fits
    have hwhole := h.dir.whole
    omega
  · rw [hw.cleared]
    nofun
  · rw [hset]
    exact h.unique.clear hslot

theorem Sane.other (hv : sb.Valid) (h : Sane sb dp s) {e : Fs.Event} {fs : FileSys}
    (hstep : Fs.Step sb devsw s.fs e fs) (hwrite : ∀ src off, e ≠ .writei dp src off)
    (hfree : e = .iput dp → ∀ ip, ¬ s.fs.Frees dp ip)
    (hused : e = .iput dp → s.holder ≠ none → 1 < s.fs.ref dp) : Sane sb dp { s with fs } := by
  obtain ⟨htype, hdev⟩ := h.dir.type_ne
  obtain ⟨hkept, -, hfile⟩ := hstep.keepsDisk hv h.through h.dir.inTable htype hdev hfree
  have hsame : SameFile s.fs.store.disk (dinode sb s.fs.store.disk dp) fs.store.disk
      (dinode sb fs.store.disk dp) := hfile.resolve_left fun ⟨src, off, he⟩ => hwrite src off he
  have htable : State.table sb dp { s with fs } = s.table sb dp := hsame.entries
  have hthrough := hstep.writtenThrough hv h.through
  refine ⟨hthrough, h.dir.same hkept hsame, ?_, fun hheld => ?_, ?_⟩
  · rw [htable]
    exact h.unique
  · have hl := h.held hheld
    obtain ⟨href, hcopy⟩ := hstep.keepsCopy hl.ref (hl.copy ▸ rfl) fun he => hused he hheld
    exact .of_cached hthrough href hcopy
  · rw [htable]
    exact h.found

theorem Sane.step (hv : sb.Valid) {a : Act} (h : Sane sb dp s) (hs : Step sb devsw dp s a s') :
    Sane sb dp s' := by
  cases hs with
  | lock hfree hnew hrun => exact h.lock hnew hrun
  | @unlock others c hheld hrun =>
    have hfs : c.fs = s.fs := by
      rw [Call.iunlock] at hrun
      split_ifs at hrun
      cases hrun
      rfl
    rw [hfs]
    exact ⟨h.through, h.dir, h.unique, fun hno => absurd rfl hno, nofun⟩
  | dirlookup hheld hrun => exact h.dirlookup hheld hrun
  | dirlink hheld hinum hrun => exact h.dirlink hv hheld hinum hrun
  | clear hheld hfound hrun => exact h.clear hv hheld hfound hrun
  | relock hheld hnew => exact ⟨h.through, h.dir, h.unique, fun _ => h.held (hheld ▸ nofun), h.found⟩
  | other hstep hwrite hfree hused => exact h.other hv hstep hwrite hfree hused

theorem Init.sane (h : Init sb dp s) : Sane sb dp s := by
  refine ⟨h.through, h.dir, h.unique, fun hno => absurd h.holder hno, fun k off hfound => ?_⟩
  rw [h.found] at hfound
  cases hfound

/-! ## The map -/

/-- `dirlookup` finds what the map has under the name. -/
def LookupConforms (sb : Superblock) (devsw : Devsw) (dp : Nat) (s : State) (others : List Nat)
    (name : List UInt8) : Prop :=
  ∃ r c, Call.onFs (dirlookup sb devsw dp name) ⟨s.fs, dp :: others⟩ = .ok (r, c) ∧
    r.map Prod.fst = (s.table sb dp).lookup (key (cstr name)) ∧ c.fs.store = s.fs.store

/-- `dirlink` fails if the name is present, and otherwise adds the binding, in the first free slot or
behind the last one. -/
def LinkConforms (sb : Superblock) (devsw : Devsw) (dp : Nat) (s : State) (others : List Nat)
    (name : List UInt8) (inum : Nat) : Prop :=
  ∃ r c, Call.dirlink sb devsw dp name inum ⟨s.fs, dp :: others⟩ = .ok (r, c) ∧
    if ((s.table sb dp).lookup (key (cstr name))).isSome
    then r = -1 ∧ c.fs.store = s.fs.store ∧ c.fs.ref = s.fs.ref
    else r = 0 ∧ State.table sb dp ⟨c.fs, some others, s.found⟩
        = (s.table sb dp).put (key (cstr name)) inum ∧
      (State.table sb dp ⟨c.fs, some others, s.found⟩).lookup
        = Function.update (s.table sb dp).lookup (key (cstr name)) (some inum)

/-- Clearing the entry at `off` removes what the map has under `k`. -/
def ClearConforms (sb : Superblock) (devsw : Devsw) (dp : Nat) (s : State) (others : List Nat)
    (k : List UInt8) (off : Nat) : Prop :=
  ∃ c, Call.clearEntry sb devsw dp off ⟨s.fs, dp :: others⟩ = .ok ((), c) ∧
    (State.table sb dp ⟨c.fs, some others, none⟩).lookup
      = Function.update (s.table sb dp).lookup k none

/-- The cache has an entry for the inode that the name is bound to. -/
def CanFind (sb : Superblock) (dp : Nat) (s : State) (name : List UInt8) : Prop :=
  ∀ inum, (s.table sb dp).lookup (key (cstr name)) = some inum → CanGet sb s.fs inum

/-- If the name is bound then the cache has an entry for its inode, and the process does not hold
the lock of it; if not, the file is not full and there is a block for the entry. -/
structure CanLink (sb : Superblock) (dp : Nat) (s : State) (others : List Nat)
    (name : List UInt8) : Prop where
  find : CanFind sb dp s name
  awake : ∀ inum, (s.table sb dp).lookup (key (cstr name)) = some inum → inum ∉ dp :: others
  fits : (s.table sb dp).lookup (key (cstr name)) = none →
    16 * (s.table sb dp).firstFree + 16 ≤ 140 * 512
  room : (s.table sb dp).lookup (key (cstr name)) = none →
    EntryRoom sb s.fs.store.disk dp (s.table sb dp).firstFree

theorem lookupConforms_iff (h : Sane sb dp s) (hheld : s.holder = some others) (name : List UInt8) :
    LookupConforms sb devsw dp s others name ↔ CanFind sb dp s name := by
  have hl : Loaded sb s.fs dp := h.held (hheld ▸ nofun)
  have hlookup : dirlookup sb devsw dp name s.fs = _ := dirlookup_run h.through h.dir hl name
  have htable : entries s.fs.store.disk (dinode sb s.fs.store.disk dp) = s.table sb dp := rfl
  rw [htable] at hlookup
  unfold LookupConforms CanFind SlotTable.lookup
  cases hfind : SlotTable.find (key (cstr name)) (s.table sb dp) with
  | none =>
    rw [hfind] at hlookup
    have hnone : reported sb none s.fs = .ok (none, s.fs) := rfl
    exact iff_of_true ⟨_, _, Call.onFs_ok (hlookup.trans hnone), rfl, rfl⟩ nofun
  | some p =>
    obtain ⟨j, inum⟩ := p
    rw [hfind, reported_some] at hlookup
    by_cases hget : CanGet sb s.fs inum
    · rw [if_pos hget] at hlookup
      refine iff_of_true ⟨_, _, Call.onFs_ok hlookup, rfl, rfl⟩ fun i hi => ?_
      cases hi
      exact hget
    · rw [if_neg hget] at hlookup
      refine iff_of_false (fun ⟨r, c, hrun, _⟩ => ?_) fun hcan => hget (hcan inum rfl)
      cases (Call.onFs_error hlookup).symm.trans hrun

theorem linkConforms_present (h : Sane sb dp s) (hheld : s.holder = some others)
    {name : List UInt8} {j i : Nat}
    (hfind : SlotTable.find (key (cstr name)) (s.table sb dp) = some (j, i)) (inum : Nat) :
    LinkConforms sb devsw dp s others name inum ↔ CanGet sb s.fs i ∧ i ∉ dp :: others := by
  have hl : Loaded sb s.fs dp := h.held (hheld ▸ nofun)
  have hlink : Call.dirlink sb devsw dp name inum ⟨s.fs, dp :: others⟩ = _ :=
    Call.dirlink_present (c := ⟨s.fs, dp :: others⟩) h.through h.dir hl hfind inum
  have hsome : ((s.table sb dp).lookup (key (cstr name))).isSome := by
    rw [SlotTable.lookup, hfind]
    rfl
  simp only [LinkConforms, if_pos hsome]
  split_ifs at hlink with hget hlocked
  · refine iff_of_false ?_ fun hcan => hcan.2 hlocked
    rintro ⟨r, c, hrun, -⟩
    cases hlink.symm.trans hrun
  · exact iff_of_true ⟨_, _, hlink, rfl, rfl, rfl⟩ ⟨hget, hlocked⟩
  · refine iff_of_false ?_ fun hcan => hget hcan.1
    rintro ⟨r, c, hrun, -⟩
    cases hlink.symm.trans hrun

theorem linkConforms_absent (hv : sb.Valid) (h : Sane sb dp s) (hheld : s.holder = some others)
    {name : List UInt8} (hfind : SlotTable.find (key (cstr name)) (s.table sb dp) = none) {inum : Nat}
    (hinum : IsInum sb inum) : LinkConforms sb devsw dp s others name inum ↔
      16 * (s.table sb dp).firstFree + 16 ≤ 140 * 512 ∧
        EntryRoom sb s.fs.store.disk dp (s.table sb dp).firstFree := by
  have hl : Loaded sb s.fs dp := h.held (hheld ▸ nofun)
  have hnone : (s.table sb dp).lookup (key (cstr name)) = none := by
    rw [SlotTable.lookup, hfind]
    rfl
  simp only [LinkConforms, hnone, Option.isSome_none, Bool.false_eq_true, if_false]
  constructor
  · rintro ⟨r, c, hrun, -⟩
    obtain ⟨-, -, hfit, hw, -⟩ := (Call.dirlink_absent hv h.through h.dir hl hfind hinum.1 hinum.2.1
      rfl (fun _ => trivial) (fun _ _ => trivial) :
        Spec (fun _ => True) _ (⟨s.fs, dp :: others⟩ : Call.Caller) _).post hrun
    have hroom := hw.room
    rw [hw.size] at hroom
    exact ⟨hfit, (Nat.le_add_left ..).trans_eq hroom⟩
  · rintro ⟨hfit, hroom⟩
    obtain ⟨r, c, hrun, hr, -, -, -, hput⟩ := (Call.dirlink_absent hv h.through h.dir hl hfind hinum.1
      hinum.2.1 rfl (fun hbig => hbig hfit) (fun _ hfew => hfew hroom) :
        Spec (fun _ => False) _ (⟨s.fs, dp :: others⟩ : Call.Caller) _).total
    have hput : State.table sb dp ⟨c.fs, some others, s.found⟩
        = (s.table sb dp).put (key (cstr name)) inum := hput
    refine ⟨r, c, hrun, hr, hput, ?_⟩
    rw [hput]
    exact h.unique.lookup_put hnone inum

theorem linkConforms_iff (hv : sb.Valid) (h : Sane sb dp s) (hheld : s.holder = some others)
    (name : List UInt8) {inum : Nat} (hinum : IsInum sb inum) :
    LinkConforms sb devsw dp s others name inum ↔ CanLink sb dp s others name := by
  cases hfind : SlotTable.find (key (cstr name)) (s.table sb dp) with
  | none =>
    have hnone : (s.table sb dp).lookup (key (cstr name)) = none := by
      rw [SlotTable.lookup, hfind]
      rfl
    rw [linkConforms_absent hv h hheld hfind hinum]
    refine ⟨fun hcan => ⟨fun i hi => ?_, fun i hi => ?_, fun _ => hcan.1, fun _ => hcan.2⟩,
      fun hcan => ⟨hcan.fits hnone, hcan.room hnone⟩⟩
    · cases hnone.symm.trans hi
    · cases hnone.symm.trans hi
  | some p =>
    obtain ⟨j, i⟩ := p
    have hsome : (s.table sb dp).lookup (key (cstr name)) = some i := by
      rw [SlotTable.lookup, hfind]
      rfl
    rw [linkConforms_present h hheld hfind]
    refine ⟨fun hcan => ⟨fun i' hi => ?_, fun i' hi => ?_, fun hno => ?_, fun hno => ?_⟩,
      fun hcan => ⟨hcan.find i hsome, hcan.awake i hsome⟩⟩
    · cases hsome.symm.trans hi
      exact hcan.1
    · cases hsome.symm.trans hi
      exact hcan.2
    · cases hsome.symm.trans hno
    · cases hsome.symm.trans hno

theorem clearConforms (hv : sb.Valid) (h : Sane sb dp s) (hheld : s.holder = some others)
    {k : List UInt8} {off : Nat} (hfound : s.found = some (k, off)) :
    ClearConforms sb devsw dp s others k off := by
  have hl : Loaded sb s.fs dp := h.held (hheld ▸ nofun)
  obtain ⟨j, inum, rfl, hslot⟩ := h.found k off hfound
  obtain ⟨hj, -⟩ := List.getElem?_eq_some_iff.mp hslot
  obtain ⟨⟨⟩, c, hrun, -, -, hset⟩ := (Call.clearEntry_spec hv h.through h.dir hl hj :
    Spec (fun _ => False) _ (⟨s.fs, dp :: others⟩ : Call.Caller) _).total
  have hset : State.table sb dp ⟨c.fs, some others, none⟩ = (s.table sb dp).set j none := hset
  refine ⟨c, hrun, ?_⟩
  rw [hset]
  exact h.unique.lookup_clear hslot

end

/-! ## A root directory -/

def readme : List UInt8 := [82, 69, 65, 68, 77, 69]

/-- The root, with its dots and one file. -/
def rootFiles : List SmallFile :=
  [.unused, ⟨T_DIR, 1, dirBytes [(Call.dot, 1), (Call.dotdot, 1), (readme, 2)], 0, 0⟩,
    ⟨T_FILE, 1, [104, 105], 0, 0⟩]

def rootDisk : Disk := image rootFiles [63]

/-- A process has the root as its current directory. -/
def rootState : State where
  fs := ⟨⟨rootDisk, []⟩, fun _ => none, fun i => if i = 1 then 1 else 0⟩
  holder := none
  found := none

theorem rootFiles_ok : ∀ f ∈ rootFiles, f.Ok := by decide

theorem rootState_table : rootState.table imageSb 1
    = [some (Call.dot, 1), some (Call.dotdot, 1), some (readme, 2)] := by
  have hinode : dinode imageSb rootState.fs.store.disk 1 = _ := dinode_image rootFiles_ok (by decide)
  rw [State.table, hinode]
  decide +kernel

theorem rootState_init : Init imageSb 1 rootState := by
  have hinode : dinode imageSb rootState.fs.store.disk 1 = (fileOf rootFiles 1).inode 1 :=
    dinode_image rootFiles_ok (by decide)
  have htable := rootState_table
  unfold State.table at htable
  refine ⟨⟨image_consistent rootFiles_ok rfl (by decide +kernel), fun i hi => ?_, fun _ _ _ => nofun⟩,
    ⟨by decide, ?_, ?_, ?_, ?_⟩, ?_, rfl, rfl⟩
  · have hone : i = 1 := by
      by_contra hne
      have hzero : rootState.fs.ref i = 0 := if_neg hne
      omega
    subst hone
    decide
  · rw [hinode]
    rfl
  · rw [hinode]
    decide
  · rw [hinode]
    decide
  · rw [htable]
    decide
  · rw [State.table, htable]
    unfold SlotTable.Unique
    decide

/-- The root is locked by a process that has no other lock. -/
def rootLocked : State := ⟨rootState.fs.load imageSb 1, some [], none⟩

theorem rootLocked_reach :
    Reach (Init imageSb 1) (Step imageSb noDevices 1) (fun _ _ => True) rootLocked := by
  have hlock : Call.ilock imageSb 1 ⟨rootState.fs, []⟩ = _ :=
    Call.ilock_eq rootState_init.through Nat.one_pos (by decide)
  rw [if_neg rootState_init.dir.type_ne.1] at hlock
  exact .next (a := Act.lock []) (.base rootState_init) trivial (.lock rfl (by decide) hlock)

end Xv6Sharing.DirectoryMap
