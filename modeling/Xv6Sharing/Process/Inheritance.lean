/-
Xv6Sharing.Process.Inheritance — what a child finds in its shared table.

`fork` copies the parent's entries up to the first free one over whatever the
slot held; `exit` clears only entries above SHAREDBASE, `wait` and
`allocproc` clear none. So a child inherits exactly its parent's table as long
as nobody exits with an entry in use at or below SHAREDBASE: then the tables of
slots without a process are free, and in every table the entries in use come
first. One process that registers a region and exits is enough to break it.
-/
import Xv6Sharing.Process.Conservation
import Xv6Sharing.Process.SharingRun

namespace Xv6Sharing.Process

open Lib Vm Share

/-- The entry `fork` should leave at an index: a copy if the parent's is in use, a
free one otherwise. -/
def InheritsEntry (e c : Shared) : Prop := (e.size ≠ 0 → c = e) ∧ (e.size = 0 → c.size = 0)

/-- The entries in use of the second table are exactly those of the first, at the
same indices; all others are free. -/
def Inherits (parent child : Table) : Prop :=
  List.Forall₂ InheritsEntry parent.entries child.entries

/-- The entries in use come first. -/
def UsedFirst (es : List Shared) : Prop :=
  (es.map Shared.size).Pairwise fun a b => a = 0 → b = 0

section

variable {L : Layout} {s s' : Sys} {p : Slot}

/-! ## Tables -/

theorem usedFirst_of_free {es : List Shared} (h : ∀ e ∈ es, e.size = 0) : UsedFirst es := by
  refine List.pairwise_map.mpr (List.pairwise_of_forall_mem_list fun e _ e' he' _ => h e' he')

theorem usedFirst_cons {e : Shared} {es : List Shared} :
    UsedFirst (e :: es) ↔ (e.size = 0 → ∀ e' ∈ es, e'.size = 0) ∧ UsedFirst es := by
  unfold UsedFirst
  rw [List.map_cons, List.pairwise_cons]
  constructor
  · intro h
    exact ⟨fun he e' he' => h.1 _ (List.mem_map_of_mem he') he, h.2⟩
  · intro h
    refine ⟨fun b hb he => ?_, h.2⟩
    obtain ⟨e', he', rfl⟩ := List.mem_map.mp hb
    exact h.1 he e' he'

theorem UsedFirst.share {es : List Shared} (h : UsedFirst es) (name : CString) (vmStart : Nat)
    (size : Int) (i : Nat) : UsedFirst (shareLoop name vmStart size i es).2 := by
  induction es generalizing i with
  | nil => exact h
  | cons e es ih =>
    obtain ⟨hhead, htail⟩ := usedFirst_cons.mp h
    rw [shareLoop]
    split
    · rename_i hfree
      exact usedFirst_cons.mpr ⟨fun _ => hhead hfree, htail⟩
    · rename_i hused
      split
      · exact h
      · exact usedFirst_cons.mpr ⟨fun hc => absurd hc hused, ih htail (i + 1)⟩

theorem inherits_free {cs ns : List Shared} (hc : ∀ e ∈ cs, e.size = 0)
    (hn : ∀ e ∈ ns, e.size = 0) (hlen : cs.length = ns.length) :
    List.Forall₂ InheritsEntry cs ns := by
  induction cs generalizing ns with
  | nil =>
    rw [List.eq_nil_of_length_eq_zero hlen.symm]
    exact .nil
  | cons c cs ih =>
    cases ns with
    | nil => cases hlen
    | cons n ns =>
      simp only [List.forall_mem_cons] at hc hn
      refine .cons ⟨fun hused => absurd hc.1 hused, fun _ => hn.1⟩ (ih hc.2 hn.2 ?_)
      exact Nat.succ.inj hlen

/-- The loop of `fork`, over a slot whose entries are free. -/
theorem forkShared_inherits {cs ns : List Shared} (hc : UsedFirst cs)
    (hn : ∀ e ∈ ns, e.size = 0) (hlen : cs.length = ns.length) :
    List.Forall₂ InheritsEntry cs (forkShared cs ns) := by
  induction cs generalizing ns with
  | nil =>
    rw [List.eq_nil_of_length_eq_zero hlen.symm]
    exact .nil
  | cons c cs ih =>
    cases ns with
    | nil => cases hlen
    | cons n ns =>
      obtain ⟨hhead, htail⟩ := usedFirst_cons.mp hc
      unfold forkShared
      split
      · rename_i hfree
        exact inherits_free (List.forall_mem_cons.mpr ⟨hfree, hhead hfree⟩) hn hlen
      · rename_i hused
        refine .cons ⟨fun _ => rfl, fun hfree => absurd hfree hused⟩ (ih htail ?_ ?_)
        · exact fun e he => hn e (List.mem_cons_of_mem _ he)
        · exact Nat.succ.inj hlen

theorem inherits_sizes {cs ns : List Shared} (h : List.Forall₂ InheritsEntry cs ns) :
    ns.map Shared.size = cs.map Shared.size := by
  induction h with
  | nil => rfl
  | @cons e c _ _ hec _ ih =>
    rw [List.map_cons, List.map_cons, ih]
    by_cases hfree : e.size = 0
    · rw [hec.2 hfree, hfree]
    · rw [hec.1 hfree]

theorem Inherits.usedFirst {parent child : Table} (h : Inherits parent child)
    (hp : UsedFirst parent.entries) : UsedFirst child.entries := by
  unfold UsedFirst
  rw [inherits_sizes h]
  exact hp

theorem forkTable_inherits {cur np : Table} (hc : UsedFirst cur.entries) (hn : AllFree np) :
    Inherits cur (forkTable cur np) :=
  forkShared_inherits hc hn (cur.length_eq.trans np.length_eq.symm)

/-! ## `exec` keeps the sizes -/

theorem accessEntries_sizes {d parent : Nat} : ∀ (es : List Shared) (va : Nat) (σ : Phys),
    Spec anyPanic (accessEntries L d parent va es) σ (fun r _ =>
      r.2.map Shared.size = es.map Shared.size) := by
  intro es
  induction es with
  | nil => exact fun _ _ => Spec.pure rfl
  | cons e es ih =>
    intro va σ
    unfold accessEntries
    split
    · exact Spec.pure rfl
    · refine Spec.seq (Spec.any fun _ => trivial) (fun r σ₁ _ => ?_)
      split
      · refine Spec.seq (ih _ σ₁) (fun r' σ₂ hr => Spec.pure ?_)
        show e.size :: r'.2.map Shared.size = _
        rw [hr]
        rfl
      · exact Spec.pure rfl

theorem execShare_sizes {q : Proc} {d : Nat} {argv : List CString} {σ : Phys} :
    Spec anyPanic (execShare L q d argv) σ (fun r _ =>
      r.2.map Shared.size = q.shared.entries.map Shared.size) := by
  unfold execShare
  cases argv with
  | nil => exact Spec.throw trivial
  | cons arg args =>
    dsimp only
    split
    · exact accessEntries_sizes _ _ σ
    · exact Spec.pure rfl

theorem Shares.sizes {file : Option (List UInt8)} {argv : List CString} {d sz entry : Nat}
    {σ₁ σ₂ : Phys} {res : ShareResult} {es : List Shared}
    (h : Shares L s p file argv d sz entry σ₁ res es σ₂) :
    (Table.ofEntries (s.proc p).shared es).entries.map Shared.size
      = (s.proc p).shared.entries.map Shared.size := by
  have hsizes := execShare_sizes.post h.share
  unfold Table.ofEntries
  split
  · exact hsizes
  · rfl

/-! ## The invariant -/

/-- Nobody exits with an entry in use at or below SHAREDBASE. -/
def ExitsClean (s : Sys) (c : Slot × Act) : Prop :=
  c.2 = .exit → ∀ e ∈ (s.proc c.1).shared.entries, e.size ≠ 0 → sharedbase < e.memstart

/-- Tables are in order: used entries first, and none in a slot without a running
process. -/
structure Tidy (s : Sys) : Prop where
  usedFirst : ∀ q, UsedFirst (s.proc q).shared.entries
  dead : ∀ q, ¬ (s.proc q).Live → AllFree (s.proc q).shared

theorem exitTable_free {t : Table}
    (h : ∀ e ∈ t.entries, e.size ≠ 0 → sharedbase < e.memstart) : AllFree (exitTable t) := by
  intro e he
  obtain ⟨e', hm, rfl⟩ := List.mem_map.mp he
  unfold clearShared
  split
  · rfl
  · rename_i hlow
    by_contra hused
    exact hlow (h e' hm hused)

theorem Returns.tidy {a : Act} {r : Int} (h : Tidy s) (hclean : ExitsClean s (p, a))
    (hret : Returns L s p a r s') : Tidy s' := by
  have hall := hret.effect.tables
    (J := fun st t => UsedFirst t.entries ∧ (¬ st.Live → AllFree t))
    (fun q => ⟨h.usedFirst q, h.dead q⟩) hret.1 ?_ ?_ ?_ ?_ ?_
  · exact ⟨fun q => (hall q).1, fun q => (hall q).2⟩
  · intro name addr size _
    refine ⟨?_, fun hdead => absurd live_runnable hdead⟩
    unfold sysShareData
    split
    · exact (h.usedFirst p).share ..
    · exact h.usedFirst p
  · intro np _ hnp
    have hfree : AllFree (s.proc np).shared := h.dead np (fun hl => hl.1 hnp.unused)
    exact ⟨(forkTable_inherits (h.usedFirst p) hfree).usedFirst (h.usedFirst p),
      fun hdead => absurd live_runnable hdead⟩
  · intro _ _ _ _ _ _ _ _ _ _ _ hs
    refine ⟨?_, fun hdead => absurd live_runnable hdead⟩
    unfold UsedFirst
    rw [hs.sizes]
    exact h.usedFirst p
  · intro ha
    have hfree := exitTable_free (hclean ha)
    exact ⟨usedFirst_of_free hfree, fun _ => hfree⟩
  · exact fun t ht => ⟨ht.1, fun _ => ht.2 (fun hl => hl.2 rfl)⟩

theorem Booted.tidy (h : Booted L s) : Tidy s := by
  refine ⟨fun q => ?_, fun q _ => ?_⟩
  · rw [h.fresh.table q]
    exact usedFirst_of_free allFree_zero
  · rw [h.fresh.table q]
    exact allFree_zero

theorem Run.tidy (h : Run L ExitsClean s) : Tidy s :=
  h.invariant (I := Tidy) (fun _ hs => hs.tidy)
    (fun _ _ _ hI hok hstep => by
      obtain ⟨r, hret⟩ := hstep
      exact hret.tidy hI hok)

/-- **A child inherits exactly its parent's table**, in every run in which nobody
exits with an entry in use at or below SHAREDBASE: when `fork` returns a pid, the
process with that pid is new and in use in its table are the parent's entries in
use, at the same indices, and nothing else. -/
theorem fork_inherits {r : Int} (h : Run L ExitsClean s) (hret : Returns L s p .fork r s')
    (hr : 0 < r) : ∃ c, (s.proc c).state = .unused ∧ (s'.proc c).state = .runnable ∧
      ((s'.proc c).pid : Int) = r ∧ (s'.proc c).parent = some p ∧ s'.proc p = s.proc p ∧
      Inherits (s.proc p).shared (s'.proc c).shared := by
  obtain ⟨np, k, d, rfl, hf⟩ := hret.forked (le_of_lt hr)
  have htidy := h.tidy
  obtain ⟨o, ho⟩ := hf.proc
  have hne : p ≠ np := fun he => hret.inUse (he ▸ hf.free)
  have hself : s'.proc np = childOf (s.proc p) (s.proc np) p s.nextpid k d o := by
    rw [ho, Function.update_self]
  refine ⟨np, hf.free, ?_, ?_, ?_, ?_, ?_⟩
  · rw [hself]
    rfl
  · rw [hself]
    rfl
  · rw [hself]
    rfl
  · rw [ho, Function.update_of_ne hne]
  · rw [hself]
    exact forkTable_inherits (htidy.usedFirst p) (htidy.dead np (fun hl => hl.1 hf.free))

theorem fork_inherits_smallKernel : ∃ s s' p r, Run smallKernel ExitsClean s ∧
    Returns smallKernel s p .fork r s' ∧ 0 < r ∧ ∃ c, (s.proc c).state = .unused ∧
      (s'.proc c).state = .runnable ∧ ((s'.proc c).pid : Int) = r ∧
      (s'.proc c).parent = some p ∧ s'.proc p = s.proc p ∧
      Inherits (s.proc p).shared (s'.proc c).shared := by
  have hok : ∀ s c, c.2.Early → ExitsClean s c := by
    intro s c hc hexit
    rw [hexit] at hc
    exact hc.elim
  have hparent : ∃ a s, Parent smallKernel ExitsClean 0 4 a s :=
    exists_parent (by decide) hok (by decide) (by decide)
  obtain ⟨a, s, hs⟩ := hparent
  have hroom := hs.free
  obtain ⟨q, hq⟩ := hs.exists_unused
  obtain ⟨np, k, d, s', hret, _⟩ := fork_returns hs.accounted hs.child hq (by
    rw [hs.sz a (Or.inl rfl)]
    omega)
  have hpos : (0 : Int) < s.nextpid := Int.natCast_pos.mpr hs.nextpid
  exact ⟨s, s', a, s.nextpid, hs.run, hret, hpos, fork_inherits hs.run hret hpos⟩

/-! ## A stale entry

init registers a region and forks a child, which registers a second one and
exits. The next child of init gets the same slot, and with it the entry of the
process before. -/

theorem nameB_noNul : (0 : UInt8) ∉ [98] := by decide

/-- "b". -/
def nameB : CString := ⟨[98], nameB_noNul⟩

/-- The table with the regions "a" and "b". -/
def twoRegions : Table :=
  ⟨Shared.make nameA 0 4 :: Shared.make nameB 0 4 :: List.replicate 8 Shared.zero, rfl⟩

theorem share_twoRegions : sysShareData 8192 (oneRegion 0 4) (some nameB) (some 0) (some 4)
    = (1, twoRegions) := by decide

theorem exit_twoRegions : exitTable twoRegions = twoRegions := by decide

theorem fork_twoRegions : forkTable (oneRegion 0 4) twoRegions = twoRegions := by decide

theorem not_inherits_twoRegions : ¬ Inherits (oneRegion 0 4) twoRegions := by
  intro h
  cases h with
  | cons _ htail =>
    cases htail with
    | cons hentry _ => exact absurd (hentry.2 rfl) (by decide)

theorem fork_inherits_stale : ∃ s p c s', Run smallKernel (fun _ _ => True) s ∧
    Returns smallKernel s p .fork ((s'.proc c).pid : Int) s' ∧ 0 < (s'.proc c).pid ∧
    (s.proc c).state = .unused ∧ (s'.proc c).parent = some p ∧
    ¬ Inherits (s.proc p).shared (s'.proc c).shared := by
  have hparent : ∃ a s, Parent smallKernel (fun _ _ => True) 0 4 a s :=
    exists_parent (by decide) (fun _ _ _ => trivial) (by decide) (by decide)
  obtain ⟨a, s, hs⟩ := hparent
  have hroom := hs.free
  have hne := hs.ne
  have hsz := hs.sz a (Or.inl rfl)
  have htab := hs.table a (Or.inl rfl)
  generalize hi : s.initproc = i at hne
  -- the child registers "b"
  have hret₁ := shareData_returns (L := smallKernel) hs.child.runnable (some nameB) (some 0) (some 4)
  rw [hsz, htab, share_twoRegions] at hret₁
  generalize hs₁ : s.withProc a _ = s₁ at hret₁
  have hacc₁ := hret₁.accounted hs.accounted (sharingFits_of_ne fun _ _ _ => Act.noConfusion)
  have hself₁ : s₁.proc a = { s.proc a with shared := twoRegions } := by
    rw [← hs₁]
    exact Function.update_self ..
  have hothers₁ : ∀ q, q ≠ a → s₁.proc q = s.proc q := by
    intro q hq
    rw [← hs₁]
    exact Function.update_of_ne hq ..
  have hphys₁ : s₁.phys = s.phys := by rw [← hs₁]; rfl
  have hinit₁ : s₁.initproc = i := by rw [← hs₁]; exact hi
  have hpid₁ : s₁.nextpid = s.nextpid := by rw [← hs₁]; rfl
  have hr₁ : Ready s₁ a := hs.child.congr (by rw [hself₁]) (by rw [hself₁]) (by rw [hself₁])
    (by rw [hself₁]) (fun v _ => by rw [hphys₁])
  -- exits, and is reaped
  have hzombie₁ : ∀ q, (s₁.proc q).state ≠ .zombie := by
    intro q
    by_cases hqa : q = a
    · rw [hqa, hself₁]
      show (s.proc a).state ≠ _
      rw [hs.child.runnable]
      exact ProcState.noConfusion
    · rw [hothers₁ q hqa]
      exact hs.noZombie q
  obtain ⟨s₂, s₃, hg⟩ := exit_reaped hacc₁ hr₁ (by rw [hinit₁]; exact hne)
    (by rw [hinit₁, hothers₁ i hne.symm, ← hi]; exact hs.init.runnable)
    (by rw [hinit₁, hself₁, ← hi]; exact hs.parent) hzombie₁
  have hself₃ : (s₃.proc a).shared = twoRegions := by
    rw [hg.shared, hself₁]
    exact exit_twoRegions
  have hproc₃ : s₃.proc i = { s.proc i with parent := s₁.adopted a (s.proc i).parent } := by
    rw [hg.others i hne.symm, hothers₁ i hne.symm]
  have hsz₃ : (s₃.proc i).sz = 8192 := by
    rw [hproc₃]
    exact hs.sz i (Or.inr hi.symm)
  have htab₃ : (s₃.proc i).shared = oneRegion 0 4 := by
    rw [hproc₃]
    exact hs.table i (Or.inr hi.symm)
  have hr₃ : Ready s₃ i := by
    have hready : Ready s i := hi ▸ hs.init
    refine hready.congr (by rw [hproc₃]) (by rw [hproc₃]) (by rw [hproc₃]) (by rw [hproc₃])
      (fun v hv => ?_)
    rw [hs.sz i (Or.inr hi.symm)] at hv
    have htables := hg.tables i hne.symm (by rw [hothers₁ i hne.symm]; exact hready.inUse) v
      (by omega)
    rw [hothers₁ i hne.symm, hphys₁] at htables
    exact htables
  -- init forks again
  have hlen₃ := hg.free
  rw [hphys₁] at hlen₃
  obtain ⟨c, k, d, s₄, hret₄, hf, _⟩ := fork_returns hg.accounted hr₃ hg.unused (by
    rw [hsz₃]
    omega)
  have hc : c = a := by
    refine le_antisymm (not_lt.mp fun hlt => hf.least a hlt hg.unused) (not_lt.mp fun hlt => ?_)
    have hci : c = i := hi ▸ hs.least c hlt
    exact hr₃.inUse (hci ▸ hf.free)
  subst hc
  obtain ⟨o', ho'⟩ := hf.proc
  have hself₄ : s₄.proc c = childOf (s₃.proc i) (s₃.proc c) i s₃.nextpid k d o' := by
    rw [ho', Function.update_self]
  have hrun₁ := hs.run.step hret₁ trivial
  refine ⟨s₃, i, c, s₄, ?_, ?_, ?_, hf.free, ?_, ?_⟩
  · exact (hrun₁.step hg.exits trivial).step hg.waits trivial
  · rw [hself₄]
    exact hret₄
  · rw [hself₄]
    show 0 < s₃.nextpid
    rw [hg.nextpid, hpid₁]
    exact hs.nextpid
  · rw [hself₄]
    rfl
  · rw [hself₄]
    show ¬ Inherits (s₃.proc i).shared (forkTable (s₃.proc i).shared (s₃.proc c).shared)
    rw [hself₃, htab₃, fork_twoRegions]
    exact not_inherits_twoRegions

end

end Xv6Sharing.Process
