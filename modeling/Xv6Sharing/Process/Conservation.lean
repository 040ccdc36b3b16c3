/-
Xv6Sharing.Process.Conservation — page frames are conserved as long as
nobody registers a region.

Without `share_data` every table stays free, so `access_shared_memory`
returns at once and maps nothing; then every step keeps the frames accounted
for (Accounting). What that means frame by frame is spelled out with the
uses of `Use`: every frame between the end of the kernel and PHYSTOP is on
the free list once and has no use, or is not on it and has exactly one.
-/
import Xv6Sharing.Process.BootTheorems

namespace Xv6Sharing.Process

open Lib Vm Share

/-- What a frame can be in use for: by a holder, or in the address space of an
owner. -/
inductive Use where
  | held (h : Holder)
  | dir (a : Space)
  | tab (a : Space) (i : Nat)
  | page (a : Space) (v : Nat)

/-- The frame a use takes: the stack of a process in use, a boot stack or an open
pipe; a page directory, one of its page tables, or one of its user pages below
SHAREDBASE. -/
def Sys.uses (s : Sys) : Use → Nat → Prop
  | .held h, f => s.holder h f
  | .dir a, f => s.space a f
  | .tab a i, f => ∃ d, s.space a d ∧ i < 1024 ∧ tabOf s.phys.mem d i = some f
  | .page a v, f => ∃ d, s.space a d ∧ v < 262144 ∧
      ∃ w, pteAt s.phys.mem d v = some w ∧ pteFrame w = f

/-- The frames of the allocator are partitioned: on the free list once, or in
use once. -/
structure Conserved (L : Layout) (s : Sys) : Prop where
  once : s.phys.freelist.Nodup
  inRam : ∀ f, f ∈ s.phys.freelist ∨ (∃ u, s.uses u f) → Ram L f
  free_or_used : ∀ f, Ram L f → (f ∈ s.phys.freelist ∧ ∀ u, ¬ s.uses u f) ∨
    (f ∉ s.phys.freelist ∧ ∃ u, s.uses u f ∧ ∀ u', s.uses u' f → u' = u)

section

variable {L : Layout} {s s' : Sys} {p : Slot}

/-! ## From the ledger to the uses -/

/-- The name the ledger of Vm.Ownership has for a use. -/
def Sys.entry (s : Sys) : Use → FrameUse → Prop
  | .held h, .other f => s.holder h f
  | .dir a, .dir d => s.space a d
  | .tab a i, .tab d j => s.space a d ∧ j = i
  | .page a v, .page d x => s.space a d ∧ x = v
  | _, _ => False

theorem uses_iff (u : Use) (f : Nat) : s.uses u f ↔
    ∃ w, s.entry u w ∧ Holds s.phys.mem (named s.space) (named s.holder) w f := by
  constructor
  · intro hu
    cases u with
    | held h => exact ⟨.other f, hu, ⟨h, hu⟩, rfl⟩
    | dir a => exact ⟨.dir f, hu, ⟨a, hu⟩, rfl⟩
    | tab a i =>
      obtain ⟨d, hd, hi, ht⟩ := hu
      exact ⟨.tab d i, ⟨hd, rfl⟩, ⟨a, hd⟩, hi, ht⟩
    | page a v =>
      obtain ⟨d, hd, hv, hw⟩ := hu
      exact ⟨.page d v, ⟨hd, rfl⟩, ⟨a, hd⟩, hv, hw⟩
  · intro hw
    obtain ⟨w, hentry, hholds⟩ := hw
    cases u <;> cases w <;> first | exact hentry.elim | skip
    · exact hholds.2 ▸ hentry
    · exact hholds.2 ▸ hentry
    · exact ⟨_, hentry.1, hentry.2 ▸ hholds.2⟩
    · exact ⟨_, hentry.1, hentry.2 ▸ hholds.2⟩

theorem entry_func (h : Accounted L s) {u : Use} {w w' : FrameUse} (hw : s.entry u w)
    (hw' : s.entry u w') : w = w' := by
  cases u <;> cases w <;> first | exact hw.elim | skip
  all_goals cases w' <;> first | exact hw'.elim | skip
  · rw [h.holders.func hw hw']
  · rw [h.spaces.func hw hw']
  · rw [h.spaces.func hw.1 hw'.1, hw.2, hw'.2]
  · rw [h.spaces.func hw.1 hw'.1, hw.2, hw'.2]

theorem entry_inj (h : Accounted L s) {u u' : Use} {w : FrameUse} (hu : s.entry u w)
    (hu' : s.entry u' w) : u = u' := by
  cases w <;> cases u <;> first | exact hu.elim | skip
  all_goals cases u' <;> first | exact hu'.elim | skip
  · rw [h.spaces.inj hu hu']
  · rw [h.spaces.inj hu.1 hu'.1, ← hu.2, ← hu'.2]
  · rw [h.spaces.inj hu.1 hu'.1, ← hu.2, ← hu'.2]
  · rw [h.holders.inj hu hu']

theorem entry_total (w : FrameUse) (f : Nat)
    (hw : Holds s.phys.mem (named s.space) (named s.holder) w f) : ∃ u, s.entry u w := by
  cases w with
  | dir d =>
    obtain ⟨⟨a, ha⟩, _⟩ := hw
    exact ⟨.dir a, ha⟩
  | tab d i =>
    obtain ⟨⟨a, ha⟩, _⟩ := hw
    exact ⟨.tab a i, ha, rfl⟩
  | page d v =>
    obtain ⟨⟨a, ha⟩, _⟩ := hw
    exact ⟨.page a v, ha, rfl⟩
  | other g =>
    obtain ⟨⟨a, ha⟩, _⟩ := hw
    exact ⟨.held a, ha⟩

theorem Accounted.conserved (h : Accounted L s) : Conserved L s := by
  have hledger : Ledger (Ram L) s.phys.freelist s.uses :=
    (h.sound.rename (R := s.entry) (entry_func h) (entry_inj h) entry_total).congr uses_iff
  refine ⟨hledger.nodup, fun f => (hledger.cover f).mpr, fun f hf => ?_⟩
  obtain hfree | ⟨u, hu⟩ := (hledger.cover f).mp hf
  · exact Or.inl ⟨hfree, fun u hu => hledger.notFree hu hfree⟩
  · exact Or.inr ⟨hledger.notFree hu, u, hu, fun u' hu' => hledger.inj hu' hu⟩

/-! ## Runs without `share_data` -/

/-- No entry of the table is in use. -/
def AllFree (t : Table) : Prop := ∀ e ∈ t.entries, e.size = 0

theorem allFree_zero : AllFree Table.zero := by
  intro e he
  rw [List.eq_of_mem_replicate he]
  rfl

theorem forkShared_mem {cs ns : List Shared} {e : Shared} (h : e ∈ forkShared cs ns) :
    (e ∈ cs ∧ e.size ≠ 0) ∨ e ∈ ns := by
  induction cs generalizing ns with
  | nil =>
    unfold forkShared at h
    exact Or.inr h
  | cons c cs ih =>
    cases ns with
    | nil => exact Or.inr h
    | cons n ns =>
      unfold forkShared at h
      split at h
      · exact Or.inr h
      · rename_i hc
        obtain rfl | h := List.mem_cons.mp h
        · exact Or.inl ⟨List.mem_cons_self, hc⟩
        · obtain ⟨hm, hs⟩ | hm := ih h
          · exact Or.inl ⟨List.mem_cons_of_mem _ hm, hs⟩
          · exact Or.inr (List.mem_cons_of_mem _ hm)

theorem AllFree.fork {cur np : Table} (hc : AllFree cur) (hn : AllFree np) :
    AllFree (forkTable cur np) := by
  intro e he
  obtain ⟨hm, _⟩ | hm := forkShared_mem he
  · exact hc e hm
  · exact hn e hm

theorem AllFree.exit {t : Table} (h : AllFree t) : AllFree (exitTable t) := by
  intro e he
  obtain ⟨e', hm, rfl⟩ := List.mem_map.mp he
  unfold clearShared
  split
  · rfl
  · exact h e' hm

theorem ofEntries_self (t : Table) : Table.ofEntries t t.entries = t := by
  unfold Table.ofEntries
  rw [dif_pos t.length_eq]

theorem execShare_free {q : Proc} {d : Nat} {argv : List CString} {σ : Phys}
    (h : AllFree q.shared) : Spec anyPanic (execShare L q d argv) σ (fun r σ' =>
      r = (.done, q.shared.entries) ∧ σ' = σ) := by
  unfold execShare
  cases argv with
  | nil => exact Spec.throw trivial
  | cons arg args =>
    dsimp only
    split
    · unfold accessSharedMemory
      cases hes : q.shared.entries with
      | nil => exact Spec.pure ⟨rfl, rfl⟩
      | cons e es =>
        unfold accessEntries
        rw [if_pos (h e (by rw [hes]; exact List.mem_cons_self))]
        exact Spec.pure ⟨rfl, rfl⟩
    · exact Spec.pure ⟨rfl, rfl⟩

/-- Steps other than `share_data`. -/
def NoSharing (_ : Sys) (c : Slot × Act) : Prop :=
  ∀ name addr size, c.2 ≠ .shareData name addr size

theorem sharingFits_of_allFree {a : Act} (h : AllFree (s.proc p).shared) :
    SharingFits L s (p, a) := by
  intro path file argv _ d sz entry σ₁ es σ₂ hs
  obtain ⟨hr, _⟩ := (execShare_free h).post hs.share
  cases hr

/-- No step but `share_data` puts anything into a table. -/
theorem Returns.allFree {a : Act} {r : Int} (h : ∀ q, AllFree (s.proc q).shared)
    (hno : NoSharing s (p, a)) (hret : Returns L s p a r s') :
    ∀ q, AllFree (s'.proc q).shared := by
  refine hret.effect.tables (J := fun _ t => AllFree t) h hret.1
    (fun _ _ _ ha => absurd ha (hno _ _ _)) (fun np _ _ => (h p).fork (h np)) ?_
    (fun _ => (h p).exit) (fun _ ht => ht)
  intro _ _ _ _ _ _ _ _ _ _ _ hs
  obtain ⟨hr, _⟩ := (execShare_free (h p)).post hs.share
  cases hr
  rw [ofEntries_self]
  exact h p

/-- The frames are accounted for, and nothing is shared. -/
structure Unshared (L : Layout) (s : Sys) : Prop where
  accounted : Accounted L s
  free : ∀ q, AllFree (s.proc q).shared

theorem Booted.unshared (h : Booted L s) : Unshared L s := by
  refine ⟨h.fresh.accounted, fun q => ?_⟩
  rw [h.fresh.table q]
  exact allFree_zero

theorem Returns.unshared {a : Act} {r : Int} (h : Unshared L s) (hno : NoSharing s (p, a))
    (hret : Returns L s p a r s') : Unshared L s' :=
  ⟨hret.accounted h.accounted (sharingFits_of_allFree (h.free p)), hret.allFree h.free hno⟩

theorem Run.unshared (h : Run L NoSharing s) : Unshared L s :=
  h.invariant (I := Unshared L) (fun _ hs => hs.unshared)
    (fun _ _ _ hI hno ⟨_, hret⟩ => hret.unshared hI hno)

end

end Xv6Sharing.Process
