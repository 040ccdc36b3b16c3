/-
Xv6Sharing.Process.SharingRun — a run in which memory is shared.

init grows by a page, registers a region under the name "a" and forks
(`Parent`); the child executes an empty program under the name "comma", which
maps the region into its window (`Child`). The region is a parameter. What goes
wrong with shared memory goes wrong a step or two after this run.
-/
import Xv6Sharing.Process.Progress

namespace Xv6Sharing.Process

open Lib Vm Share

section

variable {L : Layout} {s : Sys}

/-! ## The parent -/

theorem nameA_noNul : (0 : UInt8) ∉ [97] := by decide

/-- "a". -/
def nameA : CString := ⟨[97], nameA_noNul⟩

/-- The table with one region, under the name "a". -/
def oneRegion (addr : Nat) (size : Int) : Table :=
  ⟨Shared.make nameA addr size :: List.replicate 9 Shared.zero, rfl⟩

theorem share_oneRegion {addr : Nat} (haddr : addr + 4 ≤ 8192) (size : Int) :
    sysShareData 8192 Table.zero (some nameA) (some addr) (some size)
      = (0, oneRegion addr size) := by
  have harg : Share.argptr 8192 (some addr) 4 = some addr := by
    unfold Share.argptr
    dsimp only
    rw [if_neg]
    rintro (h | h | h)
    · exact absurd h (by decide)
    · omega
    · have : (4 : Int).toNat = 4 := rfl
      omega
  unfold sysShareData
  rw [harg]
  rfl

theorem fork_oneRegion {addr : Nat} {size : Int} (hsize : size ≠ 0) :
    forkTable (oneRegion addr size) Table.zero = oneRegion addr size := by
  have hentries : forkShared (oneRegion addr size).entries Table.zero.entries
      = (oneRegion addr size).entries := by
    show forkShared (Shared.make nameA addr size :: _) (Shared.zero :: _) = _
    unfold forkShared
    rw [if_neg (show (Shared.make nameA addr size).size ≠ 0 from hsize)]
    rfl
  unfold forkTable
  congr 1

/-- The machine after init registered `size` bytes at `addr` and forked the
process in slot `a`. -/
structure Parent (L : Layout) (ok : Sys → Slot × Act → Prop) (addr : Nat) (size : Int) (a : Slot)
    (s : Sys) : Prop where
  run : Run L ok s
  accounted : Accounted L s
  ne : a ≠ s.initproc
  init : Ready s s.initproc
  child : Ready s a
  parent : (s.proc a).parent = some s.initproc
  parentPgdir : (s.proc a).parentPgdir = (s.proc s.initproc).pgdir
  initPgdir : (s.proc s.initproc).parentPgdir = 0
  sz : ∀ q, q = a ∨ q = s.initproc → (s.proc q).sz = 8192
  table : ∀ q, q = a ∨ q = s.initproc → (s.proc q).shared = oneRegion addr size
  others : ∀ q, q ≠ a → q ≠ s.initproc → s.proc q = Proc.zero
  least : ∀ q < a, q = s.initproc
  pages : ∀ v < 2, ∃ f, pteAt s.phys.mem (s.proc s.initproc).pgdir v
    = some (f * 4096 ||| (pteW ||| pteU) ||| pteP)
  window : ∀ v, 262144 ≤ v → v < 524288 → pteAt s.phys.mem (s.proc s.initproc).pgdir v = none
  free : 40000 ≤ s.phys.freelist.length
  nextpid : 0 < s.nextpid

/-- The calls of that run. -/
def Act.Early : Act → Prop
  | .sbrk (some n) => 0 < n
  | .shareData _ _ _ | .fork => True
  | _ => False

theorem exists_parent {ok : Sys → Slot × Act → Prop} (hL : 521 ≤ 1024 - (L.kend + 4095) / 4096)
    (hok : ∀ s c, c.2.Early → ok s c) {addr : Nat} {size : Int} (haddr : addr + 4 ≤ 8192)
    (hsize : size ≠ 0) : ∃ a s, Parent L ok addr size a s := by
  obtain ⟨s₀, hboot⟩ := exists_booted hL
  have hfresh := hboot.fresh
  have hroom := hfresh.free
  obtain ⟨d₀, k₀, hinit⟩ := hfresh.init
  generalize hi : s₀.initproc = i at hinit
  have hr₀ : Ready s₀ i := hi ▸ hfresh.ready
  have hsz₀ : (s₀.proc i).sz = 4096 := by rw [hinit]; rfl
  have hothers₀ : ∀ q, q ≠ i → s₀.proc q = Proc.zero := fun q hq => hfresh.others q (hi ▸ hq)
  -- `sbrk(4096)`
  obtain ⟨σ, hret₁, hfill, hlen₁⟩ := sbrk_grows (n := 4096) hfresh.accounted hr₀ (by decide)
    (by rw [hsz₀]; decide) (by rw [hsz₀]; show 2 * 2 ≤ _; omega)
  rw [hsz₀] at hfill hlen₁ hret₁
  have hlen₁' : s₀.phys.freelist.length ≤ σ.freelist.length + 2 * 2 := hlen₁
  generalize hs₁ : s₀.resized i σ (4096 + (4096 : Int).toNat) = s₁ at hret₁
  have hacc₁ : Accounted L s₁ := hret₁.accounted hfresh.accounted (sharingFits_of_ne fun _ _ _ => Act.noConfusion)
  have hself₁ : s₁.proc i = { firstProc d₀ k₀ with sz := 8192 } := by
    rw [← hs₁, ← hinit]
    exact Function.update_self ..
  have hothers₁ : ∀ q, q ≠ i → s₁.proc q = Proc.zero := by
    intro q hq
    rw [← hs₁, ← hothers₀ q hq]
    exact Function.update_of_ne hq ..
  have hphys₁ : s₁.phys = σ := by rw [← hs₁]; rfl
  have hinit₁ : s₁.initproc = i := by rw [← hs₁]; exact hi
  have hpages₁ : ∀ v < 2, ∃ f, pteAt s₁.phys.mem (s₁.proc i).pgdir v
      = some (f * 4096 ||| (pteW ||| pteU) ||| pteP) := by
    intro v hv
    have hdir : (s₁.proc i).pgdir = (s₀.proc i).pgdir := by rw [hself₁, hinit]
    rw [hphys₁, hdir]
    by_cases hv1 : v = 1
    · exact hfill.inside v (by omega) (show v * 4096 < 8192 by omega)
    · have hv0 : v = 0 := by omega
      subst hv0
      obtain ⟨f, hf⟩ := hfresh.page
      rw [hi] at hf
      exact ⟨f, by rw [hfill.outside 0 (by decide) (by omega), hf]⟩
  have hwindow₁ : ∀ v, 262144 ≤ v → v < 524288 → pteAt s₁.phys.mem (s₁.proc i).pgdir v = none := by
    intro v h1 h2
    have hdir : (s₁.proc i).pgdir = (s₀.proc i).pgdir := by rw [hself₁, hinit]
    have hout : ¬ ((4096 + 4095) / 4096 ≤ v ∧ v * 4096 < 4096 + (4096 : Int).toNat) := by
      have : (4096 : Int).toNat = 4096 := rfl
      omega
    rw [hphys₁, hdir, hfill.outside v (by omega) hout, ← hi]
    exact hfresh.window v h1 h2
  -- `share_data("a", addr, size)`
  have hrun₁ : (s₁.proc i).state = .runnable := by rw [hself₁]; rfl
  have hret₂ := shareData_returns (L := L) hrun₁ (some nameA) (some addr) (some size)
  rw [show (s₁.proc i).sz = 8192 by rw [hself₁], show (s₁.proc i).shared = Table.zero by
    rw [hself₁]; rfl, share_oneRegion haddr size] at hret₂
  generalize hs₂ : s₁.withProc i _ = s₂ at hret₂
  have hacc₂ : Accounted L s₂ := hret₂.accounted hacc₁ (sharingFits_of_ne fun _ _ _ => Act.noConfusion)
  have hself₂ : s₂.proc i = { s₁.proc i with shared := oneRegion addr size } := by
    rw [← hs₂]
    exact Function.update_self ..
  have hothers₂ : ∀ q, q ≠ i → s₂.proc q = Proc.zero := by
    intro q hq
    rw [← hs₂, ← hothers₁ q hq]
    exact Function.update_of_ne hq ..
  have hphys₂ : s₂.phys = s₁.phys := by rw [← hs₂]; rfl
  have hinit₂ : s₂.initproc = i := by rw [← hs₂]; exact hinit₁
  have hsz₂ : (s₂.proc i).sz = 8192 := by rw [hself₂, hself₁]
  have hr₂ : Ready s₂ i := by
    refine ⟨by rw [hself₂]; exact hrun₁, fun fd => by rw [hself₂, hself₁]; rfl, fun v hv => ?_⟩
    obtain ⟨f, hf⟩ := hpages₁ v (by omega)
    rw [hself₂, hphys₂]
    show pteAt s₁.phys.mem (s₁.proc i).pgdir v ≠ none
    rw [hf]
    exact Option.some_ne_none _
  -- `fork()`
  obtain ⟨q, hq⟩ := exists_ne i
  have hfree₂ : 514 + 2 * (((s₂.proc i).sz + 4095) / 4096) < s₂.phys.freelist.length := by
    rw [hsz₂, hphys₂, hphys₁]
    omega
  obtain ⟨a, k, d, s₃, hret₃, hf, hlen₃⟩ := fork_returns hacc₂ hr₂
    (by rw [hothers₂ q hq]; rfl) hfree₂
  rw [hsz₂, hphys₂, hphys₁] at hlen₃
  have ha : a ≠ i := fun he => hr₂.inUse (he ▸ hf.free)
  have hm := hf.memory hacc₂ hr₂.inUse
  obtain ⟨o, ho⟩ := hf.proc
  have hself₃ : s₃.proc i = s₂.proc i := by rw [ho, Function.update_of_ne ha.symm]
  have hchild₃ : s₃.proc a = childOf (s₂.proc i) Proc.zero i s₂.nextpid k d o := by
    rw [ho, Function.update_self, hothers₂ a ha]
  have hinit₃ : s₃.initproc = i := hf.initproc.trans hinit₂
  have hpages₃ : ∀ v < 1048576, pteAt s₃.phys.mem (s₂.proc i).pgdir v
      = pteAt s₁.phys.mem (s₁.proc i).pgdir v := by
    intro v hv
    rw [(hm.same _ (Accounted.dir_mem hr₂.inUse)).2 v hv, hphys₂, hself₂]
  refine ⟨a, s₃, ?_⟩
  constructor
  case run =>
    have hrun₁ : Run L ok s₁ :=
      Run.step (.base hboot) hret₁ (hok _ _ (show (0 : Int) < 4096 by decide))
    exact (hrun₁.step hret₂ (hok _ _ trivial)).step hret₃ (hok _ _ trivial)
  case accounted => exact hret₃.accounted hacc₂ (sharingFits_of_ne fun _ _ _ => Act.noConfusion)
  case ne => rw [hinit₃]; exact ha
  case init =>
    rw [hinit₃]
    refine ⟨by rw [hself₃]; exact hr₂.runnable, fun fd => by rw [hself₃]; exact hr₂.files fd,
      fun v hv => ?_⟩
    rw [hself₃] at hv ⊢
    rw [hpages₃ v (by omega)]
    obtain ⟨f, hf⟩ := hpages₁ v (by omega)
    rw [hf]
    exact Option.some_ne_none _
  case child => exact hf.ready hacc₂ hr₂ (fun fd => by rw [hothers₂ a ha]; rfl)
  case parent => rw [hinit₃, hchild₃]; rfl
  case parentPgdir => rw [hinit₃, hchild₃, hself₃]; rfl
  case initPgdir => rw [hinit₃, hself₃, hself₂, hself₁]; rfl
  case sz =>
    rintro q (rfl | rfl)
    · rw [hchild₃]; exact hsz₂
    · rw [hinit₃, hself₃]; exact hsz₂
  case table =>
    rintro q (rfl | rfl)
    · rw [hchild₃]
      show forkTable (s₂.proc i).shared Table.zero = _
      rw [hself₂]
      exact fork_oneRegion hsize
    · rw [hinit₃, hself₃, hself₂]
  case others =>
    intro q hqa hqi
    rw [ho, Function.update_of_ne hqa]
    exact hothers₂ q (hinit₃ ▸ hqi)
  case least =>
    intro q hqa
    by_contra hqi
    exact hf.least q hqa (by rw [hothers₂ q (hinit₃ ▸ hqi)]; rfl)
  case pages =>
    intro v hv
    rw [hinit₃, hself₃, hpages₃ v (by omega)]
    exact hpages₁ v hv
  case window =>
    intro v h1 h2
    rw [hinit₃, hself₃, hpages₃ v (by omega)]
    exact hwindow₁ v h1 h2
  case free => omega
  case nextpid => rw [hf.nextpid]; exact Nat.succ_pos _

theorem Parent.exists_unused {ok : Sys → Slot × Act → Prop} {addr : Nat} {size : Int} {a : Slot}
    (h : Parent L ok addr size a s) : ∃ q, (s.proc q).state = .unused := by
  have hcard : ({a, s.initproc} : Finset Slot).card < (Finset.univ : Finset Slot).card := by
    have := Finset.card_le_two (a := a) (b := s.initproc)
    rw [Finset.card_fin]
    omega
  obtain ⟨q, _, hq⟩ := Finset.exists_mem_notMem_of_card_lt_card hcard
  rw [Finset.mem_insert, Finset.mem_singleton, not_or] at hq
  exact ⟨q, by rw [h.others q hq.1 hq.2]; rfl⟩

theorem Parent.noZombie {ok : Sys → Slot × Act → Prop} {addr : Nat} {size : Int} {a : Slot}
    (h : Parent L ok addr size a s) (q : Slot) : (s.proc q).state ≠ .zombie := by
  by_cases hqa : q = a
  · rw [hqa, h.child.runnable]
    exact ProcState.noConfusion
  · by_cases hqi : q = s.initproc
    · rw [hqi, h.init.runnable]
      exact ProcState.noConfusion
    · rw [h.others q hqa hqi]
      exact ProcState.noConfusion

/-! ## The child -/

/-- "comma", as an argument. -/
def commaArg : CString := ⟨comma, by decide⟩

/-- What the sharing does with one region all of whose pages the parent has. -/
theorem accessed_oneRegion {D : Set Nat} {d parent addr : Nat} {size : Int} {r : ShareResult}
    {es : List Shared} {σ σ' : Phys} (hsize : size ≠ 0)
    (h : Accessed D d parent 262144 (oneRegion addr size).entries r es σ σ')
    (hpar : parent ∈ D \ {d}) (hpages : ∀ j < Shared.pages (Shared.make nameA addr size),
      pteAt σ.mem parent (srcPage addr j) ≠ none) :
    es = Shared.moved (Shared.make nameA addr size) 262144 :: List.replicate 9 Shared.zero ∧
      Window D d parent addr 262144 (Shared.pages (Shared.make nameA addr size)) σ σ' := by
  cases h with
  | free hfree => exact absurd hfree hsize
  | stopped _ hk _ hend => exact absurd (hend hpar) (hpages _ hk)
  | region _ hwin hrest =>
    cases hrest with
    | free _ => exact ⟨rfl, hwin⟩
    | stopped hused _ _ _ => exact absurd rfl hused
    | region hused _ _ => exact absurd rfl hused

/-- The machine `s'` after the child `a` of `Parent` took part in the sharing. -/
structure Child (L : Layout) (addr : Nat) (size : Int) (a : Slot) (s s' : Sys) : Prop where
  returns : Returns L s a (.exec (some nameA) (some emptyElf) [commaArg]) 0 s'
  fits : SharingFits L s (a, .exec (some nameA) (some emptyElf) [commaArg])
  others : ∀ q, q ≠ a → s'.proc q = s.proc q
  tables : ∀ q, q ≠ a → (s.proc q).state ≠ .unused → ∀ v < 1048576,
    pteAt s'.phys.mem (s.proc q).pgdir v = pteAt s.phys.mem (s.proc q).pgdir v
  runnable : (s'.proc a).state = .runnable
  shared : (s'.proc a).shared.entries
    = Shared.moved (Shared.make nameA addr size) 262144 :: List.replicate 9 Shared.zero
  window : ∀ j < Shared.pages (Shared.make nameA addr size), ∃ w,
    pteAt s.phys.mem (s.proc s.initproc).pgdir (addr / 4096 + j) = some w ∧
    pteAt s'.phys.mem (s'.proc a).pgdir (262144 + j)
      = some (pteFrame w * 4096 ||| (pteW ||| pteU) ||| pteP)
  beyond : ∀ v, 262144 + Shared.pages (Shared.make nameA addr size) ≤ v → v < 524288 →
    pteAt s'.phys.mem (s'.proc a).pgdir v = none

theorem Parent.exec {ok : Sys → Slot × Act → Prop} {addr : Nat} {size : Int} {a : Slot}
    (h : Parent L ok addr size a s) (hpos : 0 < size) (hin : (addr : Int) + size ≤ 8192) :
    ∃ s', Child L addr size a s s' := by
  have hroom := h.free
  have hsz := h.sz a (Or.inl rfl)
  have hshared := h.table a (Or.inl rfl)
  have hpages : Shared.pages (Shared.make nameA addr size) = (size.toNat + 4095) / 4096 :=
    pages_eq hpos (show size ≤ 2147483648 by omega)
  have htotal : totalPages (s.proc a).shared.entries
      = Shared.pages (Shared.make nameA addr size) := by
    rw [hshared]
    show Shared.pages (Shared.make nameA addr size)
      + ((List.replicate 9 Shared.zero).map Shared.pages).sum = _
    rw [show ((List.replicate 9 Shared.zero).map Shared.pages).sum = 0 by decide, Nat.add_zero]
  -- loading, sharing and the whole call return
  obtain ⟨d, σ₁, hload, hlen⟩ := execLoad_emptyElf h.accounted.sound (by omega)
  have hdir : (s.proc s.initproc).pgdir ∈ named s.space := Accounted.dir_mem h.init.inUse
  have hpar : (s.proc a).parentPgdir ≠ 0 := by
    rw [h.parentPgdir]
    exact Nat.pos_iff_ne_zero.mp (h.accounted.sound.ram_dir hdir).pos
  have hfits : SharingFits L s (a, .exec (some nameA) (some emptyElf) [commaArg]) := by
    intro path file argv ha d' sz' entry' σ₁' es' σ₂' hs
    cases ha
    obtain ⟨res, es, σ₂, hs', hres, _⟩ := sharing_returns (p := a) h.accounted hload
      (List.cons_ne_nil commaArg []) hpar (by rw [htotal, hpages]; omega)
      (by rw [htotal, hpages]; omega)
    have heq := Except.ok.inj (hs.load.symm.trans hload)
    cases heq
    have heq' := Except.ok.inj (hs.share.symm.trans hs'.share)
    cases heq'
    exact hres rfl
  obtain ⟨s', hret⟩ := exec_returns nameA h.accounted h.child.runnable hload
    (List.cons_ne_nil commaArg []) (show SmallArgs [commaArg] by unfold SmallArgs; decide)
    (by decide) (by rw [hsz]; decide) (by decide) hpar (by rw [htotal, hpages]; omega)
    (by rw [htotal, hpages]; omega)
  obtain ⟨hargs, hbytes, path', hpath, hx⟩ := hret.execed
  cases hpath
  obtain ⟨d', sz, entry, σ₁', res, es, σ₂, sz', sp, hs, hm, hx', hproc⟩ :=
    hx.memory h.accounted h.child.inUse hfits hargs hbytes
  -- what the sharing did
  have hpar' : (s.proc a).parentPgdir ∈ insert d' (named s.space) \ {d'} := by
    rw [h.parentPgdir]
    exact ⟨Set.mem_insert_of_mem d' hdir, fun he => hm.fresh (he ▸ hdir)⟩
  have hsrc : ∀ j < Shared.pages (Shared.make nameA addr size),
      srcPage addr j = addr / 4096 + j ∧ addr / 4096 + j < 2 := by
    intro j hj
    unfold srcPage
    omega
  have hpte : ∀ v < 1048576, pteAt σ₁'.mem (s.proc a).parentPgdir v
      = pteAt s.phys.mem (s.proc s.initproc).pgdir v := by
    intro v hv
    rw [h.parentPgdir]
    exact (hm.loaded _ hdir).2 v hv
  have hacc : Accessed (insert d' (named s.space)) d' (s.proc a).parentPgdir 262144
      (oneRegion addr size).entries res es σ₁' σ₂ := by
    rw [← hshared]
    obtain ⟨hno, _⟩ | ⟨_, hacc⟩ := hm.shared
    · exact absurd hno (by decide)
    · exact hacc
  obtain ⟨hes, hwin⟩ := accessed_oneRegion (by omega) hacc hpar' (fun j hj => by
    rw [(hsrc j hj).1, hpte _ (by have := (hsrc j hj).2; omega)]
    obtain ⟨f, hf⟩ := h.pages _ (hsrc j hj).2
    rw [hf]
    exact Option.some_ne_none _)
  have hself : s'.proc a = execProc (s.proc a) nameA es d' sz' entry sp := by
    rw [hproc, Function.update_self]
  have hnewdir : (s'.proc a).pgdir = d' := by
    rw [hself]
    rfl
  refine ⟨s', hret, hfits, ?_, ?_, ?_, ?_, ?_, ?_⟩
  · intro q hq
    rw [hproc, Function.update_of_ne hq]
  · intro q hq hin' v hv
    exact (hx'.same _ ⟨Accounted.dir_mem hin', h.accounted.dir_ne h.child.inUse hin' hq⟩).2 v hv
  · rw [hself]
    exact h.child.runnable
  · rw [hself]
    show (Table.ofEntries (s.proc a).shared es).entries = _
    unfold Table.ofEntries
    rw [hes, dif_pos (by simp [sharedCount])]
  · intro j hj
    obtain ⟨f, hf, hparent⟩ := hwin.mapped j hj
    obtain ⟨w, hw, hwf⟩ := hparent hpar'
    rw [(hsrc j hj).1, hpte _ (by have := (hsrc j hj).2; omega)] at hw
    refine ⟨w, hw, ?_⟩
    rw [hnewdir, hx'.built.high _ (by omega) (by omega), hf, hwf]
  · intro v h1 h2
    rw [hnewdir, hx'.built.high v (by omega) (by omega), hwin.outside v (by omega) (by omega),
      hm.window v (by omega) (by omega)]
    exact kmapPte_user h.accounted.data_lt h2

end

end Xv6Sharing.Process
