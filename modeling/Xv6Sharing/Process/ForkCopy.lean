/-
Xv6Sharing.Process.ForkCopy — `copyuvm` gives the child of a `fork` a copy of
its own.

The child's directory maps the same pages under the same flags, so the guard
page below the stack stays out of reach; each page is a frame taken from the
free list, with the bytes of the parent's page. The frames of the two processes
are disjoint because every frame has one use (`Vm.Ownership`), and that is also
why a store through one directory is not seen through the other. When memory
runs out the child's part is given back: the uses are the same as before, hence
so are the free frames (`Ledger.perm_free`).

Sizes are those of processes, at most `SHAREDBASE`: above lies the window of the
shared regions, which `copyuvm` does not copy.
-/
import Xv6Sharing.Process.ArgStrings
import Xv6Sharing.Process.Growth

namespace Xv6Sharing.Process

open Lib Vm

/-- The memory after a store of `b` at `va` under page directory `d`. -/
def store (m : Mem) (d va : Nat) (b : UInt8) : Option Mem :=
  match pteAt m d (pageOf va) with
  | none => none
  | some w => some (storeBytes m (pteFrame w * 4096 + va % 4096) [b])

/-- Below `SHAREDBASE`, no store through directory `d` changes what is read
through directory `d'`. -/
def Unseen (m : Mem) (d d' : Nat) : Prop :=
  ∀ va va' b m', va < sharedbase → va' < sharedbase → store m d va b = some m' →
    load m' d' va' = load m d' va'

/-- Directory `d` is a private copy of the first `sz` bytes of directory `p`. -/
structure PrivateCopy (p sz d : Nat) (σ σ' : Phys) : Prop where
  pages : ∀ v w, v * 4096 < sz → pteAt σ.mem p v = some w → ∃ w', pteAt σ'.mem d v = some w' ∧
    pteFlags w' = pteFlags w ∧ CopiedPage σ.mem (pteFrame w) σ'.mem (pteFrame w')
  disjoint : ∀ v w v' w', v * 4096 < sz → v' < 262144 → pteAt σ'.mem d v = some w →
    pteAt σ.mem p v' = some w' → pteFrame w ≠ pteFrame w'
  distinct : ∀ v w v' w', v * 4096 < sz → v' * 4096 < sz → pteAt σ'.mem d v = some w →
    pteAt σ'.mem d v' = some w' → pteFrame w = pteFrame w' → v = v'
  kernel : ∀ v, 524288 ≤ v → v < 1048576 → pteAt σ'.mem d v = pteAt σ.mem p v
  nothingElse : ∀ v < 524288, sz ≤ v * 4096 → pteAt σ'.mem d v = none
  source : ∀ v < 1048576, pteAt σ'.mem p v = pteAt σ.mem p v
  sourceBytes : ∀ v w, v * 4096 < sz → pteAt σ.mem p v = some w →
    SamePage σ.mem σ'.mem (pteFrame w)
  fromParent : Unseen σ'.mem p d
  fromChild : Unseen σ'.mem d p

section

variable {L : Layout} {D X : Set Nat} {σ : Phys} {d d' p sz : Nat}

theorem pageOf_user {va : Nat} (h : va < sharedbase) : pageOf va < 262144 := by
  unfold pageOf
  unfold sharedbase at h
  omega

/-- Two directories have no frame in common below `SHAREDBASE`. -/
theorem unseen_of_sound (h : Sound L D X σ) (hd : d ∈ D) (hd' : d' ∈ D) (hne : d ≠ d') :
    Unseen σ.mem d d' := by
  intro va va' b m' hva hva' hstore
  unfold store at hstore
  cases hw : pteAt σ.mem d (pageOf va) with
  | none =>
    rw [hw] at hstore
    cases hstore
  | some w =>
    rw [hw] at hstore
    cases hstore
    have hnt := h.notTable_of_page hd (pageOf_user hva) hw
    refine load_congr fun f hf => samePage_poke (Nat.mod_lt _ (by decide)) ?_
    rcases hf with rfl | ht | ⟨w', hw', rfl⟩
    · intro he
      exact hnt.1 (he ▸ hd')
    · intro he
      have hpage := pageOf_user hva'
      exact hnt.2 d' hd' _ (by omega) (he ▸ ht)
    · intro he
      exact hne (h.page_inj hd (pageOf_user hva) hw hd' (pageOf_user hva') hw' he).1.symm

/-- `copyuvm` makes a private copy, or returns 0 with the same frames free. -/
theorem copyuvm_private (h : Sound L D X σ) (hp : p ∈ D) (hsz : sz ≤ sharedbase)
    (hkernel : ∀ v, 524288 ≤ v → v < 1048576 → pteAt σ.mem p v = kmapPte (kmap L) v)
    (hpages : ∀ v, v * 4096 < sz → pteAt σ.mem p v ≠ none) :
    ∃ r σ', copyuvm L p sz σ = .ok (r, σ') ∧
      match r with
      | none => σ'.freelist.Perm σ.freelist
      | some d => PrivateCopy p sz d σ σ' := by
  have hsz' := hsz
  unfold sharedbase at hsz'
  have habsent : ∀ x, x * 4096 < sz → pteAt σ.mem p x = none →
      noPanic .copyuvmMissing ∧ noPanic .copyuvmAbsent :=
    fun x hx hnone => absurd hnone (hpages x hx)
  obtain ⟨r, σ', hrun, ⟨htabs, hcase⟩, hkept, hcopied⟩ :=
    ((copyuvm_spec h hp hsz habsent).and (copyuvm_contents h hp hsz)).total
  refine ⟨r, σ', hrun, ?_⟩
  obtain ⟨rfl, h', _⟩ | ⟨d, rfl, hfree, hdD, h', hin, hout, _⟩ := hcase
  · exact Ledger.perm_free (Owned.of_sameTables h htabs) h'
  have hd : d ∈ insert d D := Set.mem_insert d D
  have hp' : p ∈ insert d D := Set.mem_insert_of_mem d hp
  have hpd : p ≠ d := fun he => hdD (he ▸ hp)
  have hsrc : ∀ v < 1048576, pteAt σ'.mem p v = pteAt σ.mem p v := (htabs p hp).2
  have hdata : L.data < phystop := Ram.data_lt (h.pool_of_free hfree)
  exact
    { pages := by
        intro v w hv hw
        obtain ⟨w₁, f, hw₁, hmapped⟩ := hin v hv
        rw [hw] at hw₁
        cases hw₁
        exact ⟨_, hmapped, pteFlags_mk f (present_of_pteAt hw),
          hcopied d rfl v hv w _ hw hmapped⟩
      disjoint := by
        intro v w v' w' hv hv' hw hw' he
        have hw'' := (hsrc v' (by omega)).trans hw'
        exact hpd (h'.page_inj hp' hv' hw'' hd (by omega) hw he).1.symm
      distinct := fun v w v' w' hv hv' hw hw' he =>
        (h'.page_inj hd (by omega) hw' hd (by omega) hw he).2
      kernel := by
        intro v hv hv'
        rw [hout v hv' (by omega), hkernel v hv hv']
      nothingElse := by
        intro v hv hge
        rw [hout v (by omega) hge]
        exact kmapPte_user hdata (by omega)
      source := hsrc
      sourceBytes := fun v w hv hw => hkept _ (mem_framesBelow (by omega) hv hw)
      fromParent := unseen_of_sound h' hp' hd hpd
      fromChild := unseen_of_sound h' hd hp' hpd.symm }

end

/-- The first process, right after boot, is copied. -/
theorem copyuvm_private_init : ∃ s, Booted smallKernel s ∧
    ∃ r σ', copyuvm smallKernel (s.proc s.initproc).pgdir 4096 s.phys = .ok (r, σ') ∧
      match r with
      | none => σ'.freelist.Perm s.phys.freelist
      | some d => PrivateCopy (s.proc s.initproc).pgdir 4096 d s.phys σ' := by
  obtain ⟨s, hs⟩ := exists_booted (L := smallKernel) (by decide)
  have hf := hs.fresh
  have hdir := Accounted.dir_mem hf.ready.inUse
  exact ⟨s, hs, copyuvm_private hf.accounted.sound hdir (by decide)
    (hf.accounted.kernel _ hdir) fun v hv => hf.ready.pages v (by rw [hf.size]; exact hv)⟩

end Xv6Sharing.Process
