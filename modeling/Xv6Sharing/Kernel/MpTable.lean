/-
Xv6Sharing.Kernel.MpTable — the scan of the MP configuration table (kernel/mp.c).

`mpinit` goes through the entries of a table that the firmware left in memory. An entry
of a type that it does not know is not skipped: the `break` leaves the `switch` and not
the loop, so that the same entry is read again. The scan ends exactly if there is no such
entry, and the panic behind the loop is never reached.
-/
import Mathlib

namespace Xv6Sharing.MpTable

/-! ## The table -/

/-- The bytes of the kernel's address space. -/
abbrev Bytes := Nat → UInt8

/-- `P2V`. -/
def p2v (a : Nat) : Nat := (a + 2 ^ 31) % 2 ^ 32

/-- A little-endian half word. -/
def ushort (mem : Bytes) (a : Nat) : Nat := (mem a).toNat + 256 * (mem (a + 1)).toNat

def uint (mem : Bytes) (a : Nat) : Nat := ushort mem a + 65536 * ushort mem (a + 2)

/-- `sum`, as an unsigned byte. -/
def sum (mem : Bytes) (a len : Nat) : UInt8 := ((List.range len).map fun i => mem (a + i)).sum

/-- The four bytes at `a`. -/
def signature (mem : Bytes) (a : Nat) : List UInt8 := (List.range 4).map fun i => mem (a + i)

/-- `mpsearch1`; a `struct mp` has 16 bytes. -/
def mpsearch1 (mem : Bytes) (a len : Nat) : Option Nat :=
  ((List.range ((len + 15) / 16)).map fun k => p2v a + 16 * k).find? fun p =>
    signature mem p = [95, 77, 80, 95] ∧ sum mem p 16 = 0

def mpsearch (mem : Bytes) : Option Nat :=
  let bda := p2v 0x400
  let ebda := ushort mem (bda + 0x0E) * 16
  let first := if ebda ≠ 0 then mpsearch1 mem ebda 1024
    else mpsearch1 mem ((ushort mem (bda + 0x13) * 1024 + 2 ^ 32 - 1024) % 2 ^ 32) 1024
  match first with
  | some mp => some mp
  | none => mpsearch1 mem 0xF0000 0x10000

/-- The fields that `mpconfig` checks: `physaddr` of `struct mp`, and `signature`, `length` and
`version` of `struct mpconf`. Returns both addresses. -/
def mpconfig (mem : Bytes) : Option (Nat × Nat) :=
  match mpsearch mem with
  | none => none
  | some mp =>
    if uint mem (mp + 4) = 0 then none
    else
      let conf := p2v (uint mem (mp + 4))
      if signature mem conf ≠ [80, 67, 77, 80] then none
      else if mem (conf + 6) ≠ 1 ∧ mem (conf + 6) ≠ 4 then none
      else if sum mem conf (ushort mem (conf + 4)) ≠ 0 then none
      else some (mp, conf)

/-! ## mpinit -/

/-- What `mpinit` sets; `imcr` tells whether it programs the IMCR. -/
structure Machine where
  ncpu : Nat
  apicid : Nat → UInt8
  ioapicid : UInt8
  lapic : Nat
  ismp : Bool
  imcr : Bool

/-- How `mpinit` goes on: it has not ended yet, it panics, or it returns. -/
inductive Outcome where
  | running
  | expectSmp
  | unsuitable
  | done (s : Machine)

/-- `case MPPROC`; NCPU is 8. -/
def addCpu (mem : Bytes) (p : Nat) (s : Machine) : Machine :=
  if s.ncpu < 8 then { s with apicid := Function.update s.apicid s.ncpu (mem (p + 1)), ncpu := s.ncpu + 1 }
  else s

/-- The `switch`: the next address, and the state. -/
def entry (mem : Bytes) (p : Nat) (s : Machine) : Nat × Machine :=
  if mem p = 0 then ((p + 20) % 2 ^ 32, addCpu mem p s)
  else if mem p = 2 then ((p + 8) % 2 ^ 32, { s with ioapicid := mem (p + 1) })
  else if mem p = 1 ∨ mem p = 3 ∨ mem p = 4 then ((p + 8) % 2 ^ 32, s)
  -- `break` stays in the loop
  else (p, { s with ismp := false })

/-- `fuel` rounds of the loop; none if it goes on. -/
def scan (mem : Bytes) (e : Nat) : Nat → Nat → Machine → Option Machine
  | 0, _, _ => none
  | fuel + 1, p, s => if p < e then scan mem e fuel (entry mem p s).1 (entry mem p s).2 else some s

/-- `mpinit`, as far as `fuel` rounds of its loop. -/
def mpinit (mem : Bytes) (s : Machine) (fuel : Nat) : Outcome :=
  match mpconfig mem with
  | none => .expectSmp
  | some (mp, conf) =>
    let s := { s with ismp := true, lapic := uint mem (conf + 36) }
    match scan mem ((conf + ushort mem (conf + 4)) % 2 ^ 32) fuel ((conf + 44) % 2 ^ 32) s with
    | none => .running
    | some s =>
      if s.ismp = false then .unsuitable
      else if mem (mp + 12) ≠ 0 then .done { s with imcr := true } else .done s

/-! ## The entries -/

/-- The size of an entry, for the types that `mpinit` knows. -/
def entrySize (type : UInt8) : Option Nat :=
  if type = 0 then some 20
  else if type = 2 then some 8
  else if type = 1 ∨ type = 3 ∨ type = 4 then some 8
  else none

/-- The entries of the table up to `e`, from one at `p` on. -/
inductive EntryAt (mem : Bytes) (e p : Nat) : Nat → Prop
  | first : EntryAt mem e p p
  | next {q n : Nat} : EntryAt mem e p q → q < e → entrySize (mem q) = some n → EntryAt mem e p (q + n)

/-- Every entry has a type that `mpinit` knows. -/
def AllKnown (mem : Bytes) (e p : Nat) : Prop :=
  ∀ q, EntryAt mem e p q → q < e → (entrySize (mem q)).isSome

variable {mem : Bytes} {e p : Nat} {s s' : Machine}

theorem EntryAt.trans {q r : Nat} (h : EntryAt mem e p q) (h' : EntryAt mem e q r) :
    EntryAt mem e p r := by
  induction h' with
  | first => exact h
  | next _ hlt hsize ih => exact ih.next hlt hsize

theorem EntryAt.cases_first {q : Nat} (h : EntryAt mem e p q) : q = p ∨
    ∃ n, p < e ∧ entrySize (mem p) = some n ∧ EntryAt mem e (p + n) q := by
  induction h with
  | first => exact .inl rfl
  | next _ hlt hsize ih =>
    rcases ih with rfl | ⟨n, hp, hn, hrest⟩
    · exact .inr ⟨_, hlt, hsize, .first⟩
    · exact .inr ⟨n, hp, hn, hrest.next hlt hsize⟩

theorem allKnown_of_le (h : e ≤ p) : AllKnown mem e p := by
  intro q hq hlt
  rcases hq.cases_first with rfl | ⟨n, hp, -⟩
  · omega
  · omega

theorem allKnown_iff (hp : p < e) {n : Nat} (hn : entrySize (mem p) = some n) :
    AllKnown mem e p ↔ AllKnown mem e (p + n) := by
  refine ⟨fun h q hq hlt => h q (EntryAt.trans (.next .first hp hn) hq) hlt, fun h q hq hlt => ?_⟩
  rcases hq.cases_first with rfl | ⟨m, -, hm, hrest⟩
  · rw [hn]
    rfl
  · cases hn.symm.trans hm
    exact h q hrest hlt

/-! ## The scan -/

theorem addCpu_ncpu (h : s.ncpu ≤ 8) : (addCpu mem p s).ncpu ≤ 8 := by
  unfold addCpu
  split
  · exact Nat.succ_le_of_lt ‹_›
  · exact h

theorem entry_ncpu (h : s.ncpu ≤ 8) : (entry mem p s).2.ncpu ≤ 8 := by
  unfold entry
  split_ifs
  · exact addCpu_ncpu h
  · exact h
  · exact h
  · exact h

/-- An entry of a type that is not known is read again. -/
theorem entry_fst (he : e + 20 ≤ 2 ^ 32) (hp : p < e) (s : Machine) :
    (entry mem p s).1 = p + (entrySize (mem p)).getD 0 := by
  have hmod : ∀ n ≤ 20, (p + n) % 2 ^ 32 = p + n := fun n hn => Nat.mod_eq_of_lt (by omega)
  unfold entry entrySize
  split_ifs
  · exact hmod 20 (by decide)
  · exact hmod 8 (by decide)
  · exact hmod 8 (by decide)
  · rfl

theorem entrySize_pos {type : UInt8} {n : Nat} (h : entrySize type = some n) : 0 < n := by
  unfold entrySize at h
  split_ifs at h <;> cases h <;> decide

theorem scan_ncpu {fuel : Nat} (h : s.ncpu ≤ 8) (hrun : scan mem e fuel p s = some s') :
    s'.ncpu ≤ 8 := by
  induction fuel generalizing p s with
  | zero => cases hrun
  | succ fuel ih =>
    rw [scan] at hrun
    split_ifs at hrun
    · exact ih (entry_ncpu h) hrun
    · cases hrun
      exact h

/-- A scan that ended met no type that is not known. -/
theorem allKnown_of_scan (he : e + 20 ≤ 2 ^ 32) {fuel : Nat}
    (hrun : scan mem e fuel p s = some s') : AllKnown mem e p := by
  induction fuel generalizing p s with
  | zero => cases hrun
  | succ fuel ih =>
    rw [scan] at hrun
    split_ifs at hrun with hp
    · have hrest := ih hrun
      rw [entry_fst he hp] at hrest
      cases hsize : entrySize (mem p) with
      | none =>
        -- the scan goes on at the same entry
        rw [hsize] at hrest
        have hsome := hrest p .first hp
        rw [hsize] at hsome
        cases hsome
      | some n =>
        rw [hsize] at hrest
        exact (allKnown_iff hp hsize).mpr hrest
    · exact allKnown_of_le (Nat.not_lt.mp hp)

theorem scan_of_allKnown (he : e + 20 ≤ 2 ^ 32) (h : AllKnown mem e p) (s : Machine) :
    ∃ fuel s', scan mem e fuel p s = some s' := by
  induction hd : e - p using Nat.strongRecOn generalizing p s with
  | _ d ih =>
    by_cases hp : p < e
    · obtain ⟨n, hn⟩ := Option.isSome_iff_exists.mp (h p .first hp)
      have hpos := entrySize_pos hn
      have hnext : (entry mem p s).1 = p + n := by rw [entry_fst he hp, hn, Option.getD_some]
      obtain ⟨fuel, s', hrun⟩ := ih (e - (p + n)) (by omega) ((allKnown_iff hp hn).mp h)
        (entry mem p s).2 rfl
      refine ⟨fuel + 1, s', ?_⟩
      rw [scan, if_pos hp, hnext]
      exact hrun
    · exact ⟨1, s, if_neg hp⟩

/-! ## mpinit -/

/-- `mpinit` ends, in its panic or with no more than NCPU processors. -/
def Ends (mem : Bytes) (s : Machine) : Prop :=
  ∃ fuel, mpinit mem s fuel = .unsuitable ∨ ∃ s', mpinit mem s fuel = .done s' ∧ s'.ncpu ≤ 8

/-- The header and the entries of the table end before the address space does, with room for one
entry more. -/
def InMemory (mem : Bytes) (conf : Nat) : Prop :=
  conf + 44 + 20 ≤ 2 ^ 32 ∧ conf + ushort mem (conf + 4) + 20 ≤ 2 ^ 32

/-- `mpinit` ends exactly if every entry of the table is of a type that it knows. -/
theorem mpinit_ends_iff {mp conf : Nat} (hconf : mpconfig mem = some (mp, conf))
    (hmem : InMemory mem conf) (hs : s.ncpu ≤ 8) :
    Ends mem s ↔ AllKnown mem (conf + ushort mem (conf + 4)) (conf + 44) := by
  obtain ⟨hhead, hend⟩ := hmem
  have hstart : (conf + 44) % 2 ^ 32 = conf + 44 := Nat.mod_eq_of_lt (by omega)
  have hstop : (conf + ushort mem (conf + 4)) % 2 ^ 32 = conf + ushort mem (conf + 4) :=
    Nat.mod_eq_of_lt (by omega)
  simp only [Ends, mpinit, hconf, hstart, hstop]
  constructor
  · rintro ⟨fuel, hfuel⟩
    split at hfuel
    · rcases hfuel with hfuel | ⟨s', hfuel, -⟩ <;> cases hfuel
    · rename_i hrun
      exact allKnown_of_scan hend hrun
  · intro hall
    obtain ⟨fuel, s', hrun⟩ := scan_of_allKnown hend hall
      { s with ismp := true, lapic := uint mem (conf + 36) }
    have hncpu : s'.ncpu ≤ 8 := scan_ncpu (by exact hs) hrun
    refine ⟨fuel, ?_⟩
    rw [hrun]
    dsimp only
    split_ifs
    · exact .inl rfl
    · exact .inr ⟨_, rfl, hncpu⟩
    · exact .inr ⟨_, rfl, hncpu⟩

/-! ## Tables -/

/-- A machine before `mpinit`. -/
def boot : Machine := ⟨0, fun _ => 0, 0, 0, false, false⟩

/-- What the firmware left at 0xF0000: a `struct mp` that points behind itself, and a table with one
entry. -/
def firmware (type checksum : UInt8) : Bytes := fun a =>
  if a < p2v 0xF0000 then 0
  else ([95, 77, 80, 95, 0x10, 0, 0x0F, 0, 1, 4, 0x81, 0, 0, 0, 0, 0,
    80, 67, 77, 80, 52, 0, 4, checksum, 0, 0, 0, 0, 0, 0, 0, 0, 0, 0, 0, 0, 0, 0, 0, 0, 0, 0, 0, 0,
    0, 0, 0, 0, 0, 0, 0, 0, 0, 0, 0, 0, 0, 0, 0, 0, type] : List UInt8).getD (a - p2v 0xF0000) 0

theorem mpconfig_firmware : mpconfig (firmware 1 151) = some (p2v 0xF0000, p2v 0xF0010) ∧
    mpconfig (firmware 5 147) = some (p2v 0xF0000, p2v 0xF0010) := by
  decide +kernel

/-- A table with a bus. -/
theorem mpinit_ends_bus : Ends (firmware 1 151) boot := by
  refine (mpinit_ends_iff mpconfig_firmware.1 (by unfold InMemory; decide) (by decide)).mpr ?_
  have hsize : entrySize (firmware 1 151 (p2v 0xF0010 + 44)) = some 8 := by decide
  rw [allKnown_iff (by decide) hsize]
  exact allKnown_of_le (by decide)

/-- A table that `mpconfig` accepts, with an entry of a type that is not known: however long it
runs, `mpinit` does not end. -/
theorem mpinit_unknown_runs : mpconfig (firmware 5 147) = some (p2v 0xF0000, p2v 0xF0010) ∧
    InMemory (firmware 5 147) (p2v 0xF0010) ∧ (∀ fuel, mpinit (firmware 5 147) boot fuel = .running) ∧
    ¬ Ends (firmware 5 147) boot := by
  have hconf := mpconfig_firmware.2
  have hruns : ∀ fuel, mpinit (firmware 5 147) boot fuel = .running := by
    intro fuel
    have hnone : ∀ s, scan (firmware 5 147) (p2v 0xF0010 + 52) fuel (p2v 0xF0010 + 44) s = none := by
      intro s
      cases hrun : scan (firmware 5 147) (p2v 0xF0010 + 52) fuel (p2v 0xF0010 + 44) s with
      | none => rfl
      | some s' =>
        have hsome := allKnown_of_scan (by decide) hrun _ .first (by decide)
        exact absurd hsome (by decide)
    have hstart : (p2v 0xF0010 + 44) % 2 ^ 32 = p2v 0xF0010 + 44 := by decide
    have hstop : (p2v 0xF0010 + ushort (firmware 5 147) (p2v 0xF0010 + 4)) % 2 ^ 32
        = p2v 0xF0010 + 52 := by decide
    simp only [mpinit, hconf, hstart, hstop, hnone]
  refine ⟨hconf, by unfold InMemory; decide, hruns, ?_⟩
  rintro ⟨fuel, hend⟩
  rw [hruns] at hend
  rcases hend with hend | ⟨s', hend, -⟩ <;> cases hend

end Xv6Sharing.MpTable
