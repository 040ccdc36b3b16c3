/-
Xv6Sharing.Process.BootTheorems — the machine `main` leaves.

Before `kinit1` every frame of RAM counts as held by nobody in particular;
`freerange` hands the frames below 4 MB to the allocator, the kernel's
directory and the boot stacks are taken from there, and the second
`freerange` hands over the rest. With that the frames balance when the first
process is about to run (`Fresh`).

`main_spec` serves both ways: every booted machine is fresh, and with enough
frames below 4 MB `main` does return.
-/
import Xv6Sharing.Process.Accounting

namespace Xv6Sharing.Process

open Lib Vm Share

section

variable {L : Layout} {s s' : Sys} {E : Panic → Prop} {D : Set Nat}

/-! ## Handing out the memory -/

/-- The frames `kinit2` is going to free. -/
def lateRam (L : Layout) : Set Nat := {f | Ram L f ∧ 1024 ≤ f}

theorem sound_powerOn (L : Layout) (mem : Mem) : Sound L ∅ {f | Ram L f} ⟨mem, []⟩ := by
  refine ⟨List.nodup_nil, ?_, ?_, ?_, ?_⟩
  · intro u f g hf hg
    cases u with
    | other k => exact hf.2.trans hg.2.symm
    | dir d => exact absurd hf.1 (Set.notMem_empty _)
    | tab d i => exact absurd hf.1 (Set.notMem_empty _)
    | page d v => exact absurd hf.1 (Set.notMem_empty _)
  · intro u w f hf hg
    cases u with
    | other k =>
      cases w with
      | other k' => rw [← hf.2, ← hg.2]
      | dir d => exact absurd hg.1 (Set.notMem_empty _)
      | tab d i => exact absurd hg.1 (Set.notMem_empty _)
      | page d v => exact absurd hg.1 (Set.notMem_empty _)
    | dir d => exact absurd hf.1 (Set.notMem_empty _)
    | tab d i => exact absurd hf.1 (Set.notMem_empty _)
    | page d v => exact absurd hf.1 (Set.notMem_empty _)
  · intro u f _
    exact List.not_mem_nil
  · intro f
    constructor
    · intro hf
      exact Or.inr ⟨.other f, hf, rfl⟩
    · intro hf
      obtain hf | ⟨u, hu⟩ := hf
      · exact absurd hf List.not_mem_nil
      · cases u with
        | other k =>
          rw [hu.2]
          exact hu.1
        | dir d => exact absurd hu.1 (Set.notMem_empty _)
        | tab d i => exact absurd hu.1 (Set.notMem_empty _)
        | page d v => exact absurd hu.1 (Set.notMem_empty _)

theorem kinit1_spec (mem : Mem) : Spec E (freerange L L.kend 0x400000) ⟨mem, []⟩ (fun _ σ' =>
    Sound L ∅ (lateRam L) σ' ∧ σ'.freelist.length = 1024 - (L.kend + 4095) / 4096) := by
  unfold freerange
  refine (freerangeLoop_spec _ _ _ _ (sound_powerOn L mem) (fun f h1 h2 => ?_)).mono
    (fun _ σ' hr => ?_)
  · refine ⟨by omega, ?_⟩
    unfold phystop
    omega
  · obtain ⟨h, _, hlen⟩ := hr
    have hset : {f ∈ {f | Ram L f} | ¬ ((L.kend + 4095) / 4096 ≤ f ∧
        f < (L.kend + 4095) / 4096 + (0x400000 / 4096 - (L.kend + 4095) / 4096))} = lateRam L := by
      ext f
      simp only [Set.mem_ofPred_eq, lateRam]
      refine and_congr_right (fun hf => ?_)
      have := hf.1
      omega
    rw [hset] at h
    exact ⟨h, by rw [hlen]; simp⟩

/-- `startothers`: the stacks come from the frames that were free. -/
theorem startothers_spec {Y : Set Nat} : ∀ (n : Nat) (s : Sys),
    Sound L D (Y ∪ {f | f ∈ s.bootStacks}) s.phys → s.bootStacks.Nodup →
    (∀ f ∈ s.bootStacks, f ∉ Y) → (s.phys.freelist.length < n → E .nullDeref) →
    Spec E (startothers n) s (fun _ s' =>
      Sound L D (Y ∪ {f | f ∈ s'.bootStacks}) s'.phys ∧ s'.bootStacks.Nodup ∧
      (∀ f ∈ s'.bootStacks, f ∉ Y) ∧ s'.phys.mem = s.phys.mem ∧
      s'.phys.freelist.length + n = s.phys.freelist.length ∧
      s' = { s with phys := s'.phys, bootStacks := s'.bootStacks }) := by
  intro n
  induction n with
  | zero =>
    intro s h hnodup hY _
    exact Spec.pure ⟨h, hnodup, hY, rfl, rfl, rfl⟩
  | succ n ih =>
    intro s h hnodup hY hroom
    unfold startothers
    cases hfree : s.phys.freelist with
    | nil =>
      refine Spec.seq_ok (onPhys_ok (kalloc_none hfree)) (Spec.throw (hroom ?_))
      rw [hfree]
      exact Nat.succ_pos n
    | cons k rest =>
      refine Spec.seq_ok (onPhys_ok (kalloc_some hfree)) ?_
      refine Spec.seq_ok (modify_run _ _) ?_
      have hsound : Owned L s.phys.mem (k :: rest) D (Y ∪ {f | f ∈ s.bootStacks}) := by
        rw [← hfree]
        exact h
      have hk : k ∉ Y ∪ {f | f ∈ s.bootStacks} := by
        intro hk
        have hheld : Holds s.phys.mem D (Y ∪ {f | f ∈ s.bootStacks}) (.other k) k := ⟨hk, rfl⟩
        exact hsound.notFree hheld List.mem_cons_self
      have hset : insert k (Y ∪ {f | f ∈ s.bootStacks})
          = Y ∪ {f | f ∈ k :: s.bootStacks} := by
        ext f
        simp only [Set.mem_insert_iff, Set.mem_union, Set.mem_ofPred_eq, List.mem_cons]
        exact or_left_comm
      have hnext := hsound.kalloc
      rw [hset] at hnext
      refine (ih { s with phys := ⟨s.phys.mem, rest⟩, bootStacks := k :: s.bootStacks } hnext
        (List.nodup_cons.mpr ⟨fun hm => hk (Or.inr hm), hnodup⟩) ?_ ?_).mono
        (fun _ s' hr => ?_)
      · intro f hf
        obtain rfl | hf := List.mem_cons.mp hf
        · exact fun hm => hk (Or.inl hm)
        · exact hY f hf
      · intro hlt
        refine hroom ?_
        rw [hfree]
        exact Nat.succ_lt_succ hlt
      · obtain ⟨h', hn', hY', hmem, hlen, heq⟩ := hr
        refine ⟨h', hn', hY', hmem, ?_, heq⟩
        show s'.phys.freelist.length + (n + 1) = rest.length + 1
        have : s'.phys.freelist.length + n = rest.length := hlen
        omega

theorem kinit2_spec {σ : Phys} {B : List Nat} (h : Sound L D (lateRam L ∪ {f | f ∈ B}) σ)
    (hB : ∀ f ∈ B, f ∉ lateRam L) (hkend : L.kend ≤ 0x400000) :
    Spec E (freerange L 0x400000 phystop) σ (fun _ σ' =>
      Sound L D {f | f ∈ B} σ' ∧ SameTables D σ.mem σ'.mem ∧
      σ'.freelist.length = σ.freelist.length + 56320) := by
  have hn : phystop / 4096 - (0x400000 + 4095) / 4096 = 56320 := by decide
  have ha : (0x400000 + 4095) / 4096 = 1024 := by decide
  unfold freerange
  rw [hn, ha]
  refine (freerangeLoop_spec _ _ _ _ h (fun f h1 h2 => Or.inl ⟨⟨by omega, ?_⟩, h1⟩)).mono
    (fun _ σ' hr => ?_)
  · unfold phystop
    omega
  · obtain ⟨h', hs, hlen⟩ := hr
    have hset : {f ∈ lateRam L ∪ {f | f ∈ B} | ¬ (1024 ≤ f ∧ f < 1024 + 56320)}
        = {f | f ∈ B} := by
      ext f
      simp only [Set.mem_ofPred_eq, Set.mem_union]
      constructor
      · intro hf
        obtain ⟨hf | hf, hout⟩ := hf
        · have := hf.1.lt
          have := hf.2
          omega
        · exact hf
      · intro hf
        refine ⟨Or.inr hf, fun hin => hB f hf ⟨?_, hin.1⟩⟩
        exact h.ram_other (Or.inr hf)
    rw [hset] at h'
    exact ⟨h', hs, hlen⟩

/-! ## The first process -/

/-- The first process, with its page directory and stack. -/
def firstProc (d k : Nat) : Proc where
  sz := 4096
  pgdir := d
  parentPgdir := 0
  kstack := k
  state := .runnable
  pid := 1
  parent := none
  tf := ⟨0, 4096, 0⟩
  killed := false
  ofile := fun _ => none
  name := initcodeName
  shared := Table.zero

/-- The machine when the first process is about to run. -/
structure Fresh (L : Layout) (s : Sys) : Prop where
  accounted : Accounted L s
  init : ∃ d k, s.proc s.initproc = firstProc d k
  others : ∀ p, p ≠ s.initproc → s.proc p = Proc.zero
  page : ∃ f, pteAt s.phys.mem (s.proc s.initproc).pgdir 0
    = some (f * 4096 ||| (pteW ||| pteU) ||| pteP)
  window : ∀ v, 262144 ≤ v → v < 524288 → pteAt s.phys.mem (s.proc s.initproc).pgdir v = none
  free : 50000 ≤ s.phys.freelist.length
  nextpid : s.nextpid = 2
  file : ∀ i, s.file i = File.zero
  iref : ∀ n, s.iref n = 0

/-- The frames balance once the first process has its directory `d` and stack `k`. -/
theorem accounted_first {σ : Phys} {kd d k : Nat} {B : List Nat}
    (hsound : Sound L (insert d {kd}) (insert k {f | f ∈ B}) σ) (hd : d ≠ kd) (hk : k ∉ B)
    (hB : B.Nodup) (hphys : s.phys = σ) (hkpgdir : s.kpgdir = kd) (hboot : s.bootStacks = B)
    (hself : (s.proc s.initproc).state = .runnable ∧ (s.proc s.initproc).pgdir = d ∧
      (s.proc s.initproc).kstack = k ∧ (s.proc s.initproc).sz = 4096)
    (hothers : ∀ p, p ≠ s.initproc → s.proc p = Proc.zero)
    (hfile : ∀ i, s.file i = File.zero) (hpipe : ∀ f, s.pipe f = ⟨false, false⟩)
    (hkern : ∀ g, g = d ∨ g = kd → ∀ v, 524288 ≤ v → v < 1048576 →
      pteAt σ.mem g v = kmapPte (kmap L) v)
    (htop : ∀ v < 262144, 1 ≤ v → pteAt σ.mem d v = none) : Accounted L s := by
  have hproc : ∀ p, (s.proc p).state ≠ .unused ↔ p = s.initproc := by
    intro p
    by_cases hp : p = s.initproc
    · rw [hp, hself.1]
      exact iff_of_true nofun rfl
    · rw [hothers p hp]
      exact iff_of_false (fun hc => hc rfl) hp
  have hspace : ∀ a g, s.space a g ↔ (a = .kernel ∧ g = kd) ∨ (a = .proc s.initproc ∧ g = d) := by
    intro a g
    cases a with
    | kernel =>
      show g = s.kpgdir ↔ _
      rw [hkpgdir]
      simp
    | proc p =>
      show ((s.proc p).state ≠ .unused ∧ g = (s.proc p).pgdir) ↔ _
      rw [hproc p]
      constructor
      · intro hg
        obtain ⟨rfl, hg⟩ := hg
        exact Or.inr ⟨rfl, hg.trans hself.2.1⟩
      · intro hg
        obtain hg | ⟨hp, hg⟩ := hg
        · cases hg.1
        · have hp' := Space.proc.inj hp
          subst hp'
          exact ⟨rfl, hg.trans hself.2.1.symm⟩
  have hclosed : ∀ f, ¬ (s.pipe f).Open := by
    intro f hf
    rw [hpipe f] at hf
    obtain hf | hf := hf
    · cases hf
    · cases hf
  have hholder : ∀ a g, s.holder a g ↔ (∃ i, a = .boot i ∧ B[i]? = some g) ∨
      (a = .stack s.initproc ∧ g = k) := by
    intro a g
    cases a with
    | boot i =>
      show s.bootStacks[i]? = some g ↔ _
      rw [hboot]
      simp
    | pipe f =>
      refine iff_of_false (fun hg => hclosed f hg.2) (fun hg => ?_)
      obtain ⟨i, hi, _⟩ | ⟨hg, _⟩ := hg
      · cases hi
      · cases hg
    | stack p =>
      show ((s.proc p).state ≠ .unused ∧ g = (s.proc p).kstack) ↔ _
      rw [hproc p]
      constructor
      · intro hg
        obtain ⟨rfl, hg⟩ := hg
        exact Or.inr ⟨rfl, hg.trans hself.2.2.1⟩
      · intro hg
        obtain ⟨i, hi, _⟩ | ⟨hp, hg⟩ := hg
        · cases hi
        · have hp' := Holder.stack.inj hp
          subst hp'
          exact ⟨rfl, hg.trans hself.2.2.1.symm⟩
  have hspaces : Naming s.space ∧ named s.space = insert d {kd} := by
    have hone : Naming (fun (a : Space) (g : Nat) => a = .kernel ∧ g = kd) :=
      ⟨fun hf hg => hf.2.trans hg.2.symm, fun hf hg => hf.1.trans hg.1.symm⟩
    have hnamed : named (fun (a : Space) (g : Nat) => a = .kernel ∧ g = kd) = {kd} := by
      ext g
      simp [named]
    have := hone.add (u := .proc s.initproc) (f := d) (fun g hg => by cases hg.1)
      (by rw [hnamed]; exact hd) hspace
    rw [hnamed] at this
    exact this
  have hholders : Naming s.holder ∧ named s.holder = insert k {f | f ∈ B} := by
    have hone : Naming (fun (a : Holder) (g : Nat) => ∃ i, a = .boot i ∧ B[i]? = some g) := by
      refine ⟨?_, ?_⟩
      · intro u f g hf hg
        obtain ⟨i, rfl, hi⟩ := hf
        obtain ⟨j, hj, hg⟩ := hg
        have := Holder.boot.inj hj
        subst this
        exact Option.some.inj (hi.symm.trans hg)
      · intro u w f hf hg
        obtain ⟨i, rfl, hi⟩ := hf
        obtain ⟨j, rfl, hj⟩ := hg
        obtain ⟨hi', _⟩ := List.getElem?_eq_some_iff.mp hi
        rw [(List.getElem?_inj hi' hB).mp (hi.trans hj.symm)]
    have hnamed : named (fun (a : Holder) (g : Nat) => ∃ i, a = .boot i ∧ B[i]? = some g)
        = {f | f ∈ B} := by
      ext g
      simp [named, List.mem_iff_getElem?]
    have := hone.add (u := .stack s.initproc) (f := k) (fun g hg => by
      obtain ⟨i, hi, _⟩ := hg
      cases hi) (by rw [hnamed]; exact hk) hholder
    rw [hnamed] at this
    exact this
  refine ⟨hspaces.1, hholders.1, ?_, fun g hg v h1 h2 => ?_, fun p hp => ?_, ?_,
    fun p hp hne => ?_⟩
  · rw [hspaces.2, hholders.2, hphys]
    exact hsound
  · rw [hspaces.2] at hg
    rw [hphys]
    exact hkern g hg v h1 h2
  · have hp' := (hproc p).mp hp
    subst hp'
    rw [hself.2.2.2, hself.2.1, hphys]
    exact ⟨by decide, fun v hv hge => htop v hv (by omega)⟩
  · have hnone : ∀ i e, ¬ s.endOf i e := by
      intro i e he
      have := he.1
      rw [hfile i] at this
      cases this
    refine ⟨⟨fun hf => absurd hf (hnone _ _), fun hf => absurd hf (hnone _ _)⟩, fun f w => ?_,
      fun i _ => ?_⟩
    · rw [hpipe f]
      refine iff_of_false ?_ (fun hm => ?_)
      · cases w <;> exact nofun
      · obtain ⟨i, hi⟩ := hm
        exact hnone _ _ hi
    · rw [hfile i]
      exact nofun
  · exact absurd ((hproc p).mp hp) hne

theorem userinit_spec {kd : Nat} {B : List Nat} {initcode : List UInt8}
    (hsound : Sound L {kd} {f | f ∈ B} s.phys) (hB : B.Nodup) (hkpgdir : s.kpgdir = kd)
    (hboot : s.bootStacks = B) (hproc : s.proc = fun _ => Proc.zero)
    (hfile : s.file = fun _ => File.zero) (hpipe : s.pipe = fun _ => ⟨false, false⟩)
    (hkern : ∀ v, 524288 ≤ v → v < 1048576 → pteAt s.phys.mem kd v = kmapPte (kmap L) v)
    (hroom : 56000 ≤ s.phys.freelist.length) (hpid : s.nextpid = 1) (hiref : s.iref = fun _ => 0)
    (hcode : 4096 ≤ initcode.length → E .inituvm) :
    Spec E (userinit L initcode) s (fun _ s' => Fresh L s') := by
  unfold userinit
  refine Spec.seq allocproc_cases (fun r s₁ h₁ => ?_)
  obtain ⟨hs, ⟨_, hall, _⟩ | ⟨np, _, _, hempty, _⟩ |
    ⟨np, k, rest, rfl, hnp, hfree, hpid₁, hphys, hproc₁⟩⟩ := h₁
  · exact absurd (by rw [hproc]; rfl) (hall 0)
  · rw [hempty] at hroom
    exact absurd hroom (by decide)
  refine Spec.seq_ok (modify_run _ _) ?_
  have hsound' : Owned L s.phys.mem (k :: rest) {kd} {f | f ∈ B} := by
    rw [← hfree]
    exact hsound
  have hk : k ∉ B := by
    intro hk
    have hheld : Holds s.phys.mem {kd} {f | f ∈ B} (.other k) k := ⟨hk, rfl⟩
    exact hsound'.notFree hheld List.mem_cons_self
  have h₁ : Sound L {kd} (insert k {f | f ∈ B}) s₁.phys := by
    rw [hphys]
    exact hsound'.kalloc
  have hlen : 56000 ≤ s₁.phys.freelist.length + 1 := by
    rw [hphys]
    rw [hfree] at hroom
    exact hroom
  refine Spec.seq (Spec.lift (setupkvm_spec h₁)) (fun r s₂ h₂ => ?_)
  obtain ⟨σ, rfl, hsame, ⟨_, _, hfew⟩ | ⟨d, rfl, hdfree, hd, hσ, hkd, hl⟩⟩ := h₂
  · have : s₁.phys.freelist.length ≤ 513 := hfew
    omega
  have hl₁ : s₁.phys.freelist.length ≤ σ.freelist.length + 513 := hl
  have hsame₁ : SameTables {kd} s₁.phys.mem σ.mem := hsame
  have hdata := Ram.data_lt (h₁.pool_of_free hdfree)
  have hnone : ∀ v < 524288, pteAt σ.mem d v = none := by
    intro v hv
    rw [hkd v (by omega), kmapPte_user hdata hv]
  refine Spec.seq (Spec.lift (inituvm_spec hσ (Set.mem_insert d _) hcode (hnone 0 (by decide))
    (show 2 ≤ σ.freelist.length by omega))) (fun _ s₃ h₃ => ?_)
  obtain ⟨σ', rfl, hσ', ⟨f, hedit⟩, hl'⟩ := h₃
  simp only [withPhys_phys] at hedit hl'
  have hDd : insert d {kd} \ {d} = ({kd} : Set Nat) := Set.insert_sdiff_self_of_notMem hd
  have hsame' : SameTables {kd} s.phys.mem σ'.mem := by
    have := hedit.others
    rw [hDd] at this
    rw [hphys] at hsame₁
    exact hsame₁.trans this
  have hpte : ∀ v < 1048576, v ≠ 0 → pteAt σ'.mem d v = pteAt σ.mem d v := by
    intro v hv hne
    rw [hedit.pte v hv, Function.update_of_ne hne]
  refine Spec.of_ok (setProc_run np _ _) ?_
  generalize hs' : (((({ s₁ with initproc := np } : Sys).withPhys σ).withPhys σ').withProc np _)
    = s'
  have hself : s'.proc np = firstProc d k := by
    rw [← hs', withProc_proc, Function.update_self]
    simp only [withPhys_proc]
    rw [hproc₁, Function.update_self, hproc, hpid]
    rfl
  have hothers : ∀ p, p ≠ np → s'.proc p = Proc.zero := by
    intro p hp
    rw [← hs', withProc_proc, Function.update_of_ne hp]
    show s₁.proc p = _
    rw [hproc₁, Function.update_of_ne hp, hproc]
  have hinit : s'.initproc = np := by
    rw [← hs']
    rfl
  have hphys' : s'.phys = σ' := by
    rw [← hs']
    rfl
  have hfiles : ∀ i, s'.file i = File.zero := by
    intro i
    rw [← hs']
    show s₁.file i = _
    rw [hs.file, hfile]
  have hacc : Accounted L s' := by
    refine accounted_first hσ' hd hk hB hphys' ?_ ?_ ?_ ?_ ?_ ?_ ?_ ?_
    · rw [← hs']
      exact hs.kpgdir.trans hkpgdir
    · rw [← hs']
      exact hs.bootStacks.trans hboot
    · rw [hinit, hself]
      exact ⟨rfl, rfl, rfl, rfl⟩
    · rw [hinit]
      exact hothers
    · exact hfiles
    · intro i
      rw [← hs']
      show s₁.pipe i = _
      rw [hs.pipe, hpipe]
    · intro g hg v h1 h2
      obtain rfl | rfl := hg
      · rw [hpte v h2 (by omega)]
        exact hkd v h2
      · rw [(hsame' g rfl).2 v h2]
        exact hkern v h1 h2
    · intro v hv hpos
      rw [hpte v (by omega) (by omega)]
      exact hnone v (by omega)
  refine ⟨hacc, ⟨d, k, by rw [hinit]; exact hself⟩, by rw [hinit]; exact hothers, ⟨f, ?_⟩,
    fun v h1 h2 => ?_, ?_, ?_, hfiles, fun n => ?_⟩
  · rw [hinit, hself, hphys']
    show pteAt σ'.mem d 0 = _
    rw [hedit.pte 0 (by decide), Function.update_self]
  · rw [hinit, hself, hphys']
    show pteAt σ'.mem d v = _
    rw [hpte v (by omega) (by omega)]
    exact hnone v h2
  · rw [hphys']
    omega
  · rw [← hs']
    show s₁.nextpid = 2
    rw [hpid₁, hpid]
  · rw [← hs']
    show s₁.iref n = 0
    rw [hs.iref, hiref]

/-- `main`. It stops when the frames below 4 MB do not suffice for the kernel's
directory and the boot stacks, or when initcode is too long. -/
theorem main_spec {mem : Mem} {ncpu : Nat} {initcode : List UInt8} (hncpu : ncpu ≤ 8)
    (hfew : 1024 - (L.kend + 4095) / 4096 < 521 → E .nullDeref)
    (hcode : 4096 ≤ initcode.length → E .inituvm) :
    Spec E (main L ncpu initcode) (powerOn mem) (fun _ s => Fresh L s) := by
  unfold main
  refine Spec.seq (Spec.lift (kinit1_spec mem)) (fun _ s₁ h₁ => ?_)
  obtain ⟨σ₁, rfl, h₁, hlen₁⟩ := h₁
  -- the kernel's directory
  refine Spec.seq (Q := fun _ s₂ => ∃ kd σ₂, s₂ = { powerOn mem with phys := σ₂, kpgdir := kd } ∧
      Sound L {kd} (lateRam L) σ₂ ∧ (∀ v < 1048576, pteAt σ₂.mem kd v = kmapPte (kmap L) v) ∧
      L.kend ≤ 0x400000 ∧ σ₁.freelist.length ≤ σ₂.freelist.length + 513) ?_ (fun _ s₂ h₂ => ?_)
  · unfold kvmalloc
    refine Spec.seq (Spec.lift (setupkvm_spec h₁)) (fun r s₂ h₂ => ?_)
    obtain ⟨σ₂, rfl, _, ⟨rfl, _, hshort⟩ | ⟨kd, rfl, hfree, _, h₂, hkd, hlen⟩⟩ := h₂
    · simp only [withPhys_phys] at hshort
      exact Spec.throw (hfew (by omega))
    · refine Spec.of_ok (modify_run _ _) ⟨kd, σ₂, rfl, ?_, hkd, ?_, hlen⟩
      · rw [insert_empty_eq] at h₂
        exact h₂
      · -- a frame was free, and the late ones are not
        simp only [withPhys_phys] at hfree
        have hram := h₁.pool_of_free hfree
        by_contra hc
        have hlate : kd ∈ lateRam L := ⟨hram, by have := hram.1; omega⟩
        have hheld : Holds σ₁.mem ∅ (lateRam L) (.other kd) kd := ⟨hlate, rfl⟩
        exact h₁.notFree hheld hfree
  obtain ⟨kd, σ₂, rfl, h₂, hkd, hkend, hlen₂⟩ := h₂
  -- the boot stacks
  refine Spec.seq (startothers_spec (L := L) (D := {kd}) (Y := lateRam L) (ncpu - 1)
    { powerOn mem with phys := σ₂, kpgdir := kd } ?_ List.nodup_nil
    (fun f hf => absurd hf List.not_mem_nil) ?_) (fun _ s₃ h₃ => ?_)
  · have hset : lateRam L ∪ {f | f ∈ (powerOn mem).bootStacks} = lateRam L := by
      ext f
      simp [powerOn]
    show Sound L {kd} (lateRam L ∪ {f | f ∈ (powerOn mem).bootStacks}) σ₂
    rw [hset]
    exact h₂
  · intro hshort
    have : σ₂.freelist.length < ncpu - 1 := hshort
    exact hfew (by omega)
  obtain ⟨h₃, hnodup, hY, hmem, hlen₃, heq⟩ := h₃
  have hmem₃ : s₃.phys.mem = σ₂.mem := hmem
  -- the rest of the memory, and the first process
  refine Spec.seq (Spec.lift (kinit2_spec h₃ hY hkend)) (fun _ s₄ h₄ => ?_)
  obtain ⟨σ₄, rfl, h₄, hs₄, hlen₄⟩ := h₄
  refine userinit_spec (B := s₃.bootStacks) h₄ hnodup ?_ rfl ?_ ?_ ?_ ?_ ?_ ?_ ?_ hcode
  · show s₃.kpgdir = kd
    rw [heq]
  · show s₃.proc = _
    rw [heq]
    rfl
  · show s₃.file = _
    rw [heq]
    rfl
  · show s₃.pipe = _
    rw [heq]
    rfl
  · intro v h1 h2
    show pteAt σ₄.mem kd v = _
    rw [(hs₄ kd rfl).2 v h2, hmem₃]
    exact hkd v h2
  · show 56000 ≤ σ₄.freelist.length
    omega
  · show s₃.nextpid = 1
    rw [heq]
    rfl
  · show s₃.iref = _
    rw [heq]
    rfl

theorem Booted.fresh (h : Booted L s) : Fresh L s := by
  obtain ⟨mem, ncpu, initcode, hncpu, hrun⟩ := h
  exact (main_spec (E := anyPanic) hncpu (fun _ => trivial) (fun _ => trivial)).post hrun

theorem Fresh.table (h : Fresh L s) (q : Slot) : (s.proc q).shared = Table.zero := by
  by_cases hq : q = s.initproc
  · obtain ⟨d, k, hinit⟩ := h.init
    rw [hq, hinit]
    rfl
  · rw [h.others q hq]
    rfl

theorem exists_booted (h : 521 ≤ 1024 - (L.kend + 4095) / 4096) : ∃ s, Booted L s := by
  have hspec : Spec (fun _ => False) (main L 1 []) (powerOn fun _ => 0) (fun _ s => Fresh L s) :=
    main_spec (by decide) (fun hlt => by omega) (fun hlen => absurd hlen (by decide))
  obtain ⟨_, s, hrun, _⟩ := hspec.total
  exact ⟨s, _, _, _, by decide, hrun⟩

/-- A kernel that ends at 0x115000, with its data from 0x108000 on. -/
def smallKernel : Layout where
  data := 0x108000
  kend := 0x115000
  data_aligned := by decide
  extmem_lt_data := by decide
  data_le_kend := by decide
  kend_le := by decide

end

end Xv6Sharing.Process
