/-
Xv6Sharing.Process.ExecTheorems — what the parts of `exec` do to memory.

* `execLoad` builds an image in a fresh directory; on failure it gives back
  all it took.
* The sharing is summed up by `Accessed`, which follows the two loops of
  `access_shared_memory` but says only what was mapped: region after region
  goes to the window at SHAREDBASE, page `j` of a region to the frame the
  parent has at page `j` counted from the page of `memstart`. When the
  allocator runs dry in the middle the code calls `deallocuvm` on frames it
  does not own; nothing is said about that outcome.
* `execStack` adds two pages and writes the arguments. The stack pointer may
  wrap below 0; `copyout` then meets the kernel's half and fails.
-/
import Xv6Sharing.Process.Exec
import Xv6Sharing.Vm.CopyTheorems

namespace Xv6Sharing.Process

open Lib Vm Share

section

variable {L : Layout} {D X : Set Nat} {σ σ' : Phys} {d : Nat} {E : Panic → Prop}

/-! ## Loading -/

/-- Directory `d` of `σ'` holds an image of size `sz`; at and above SHAREDBASE
it is as in `σ`. -/
structure Built (d sz : Nat) (σ σ' : Phys) : Prop where
  size : sz ≤ sharedbase
  image : Image σ'.mem d sz
  high : ∀ v, 262144 ≤ v → v < 1048576 → pteAt σ'.mem d v = pteAt σ.mem d v

theorem Built.trans {σ'' : Phys} {sz sz' : Nat} (h : Built d sz σ σ') (h' : Built d sz' σ' σ'') :
    Built d sz' σ σ'' :=
  ⟨h'.size, h'.image, fun v h1 h2 => (h'.high v h1 h2).trans (h.high v h1 h2)⟩

theorem Built.of_sameTables {sz : Nat} {σ'' : Phys} (h : Built d sz σ σ') (hd : d ∈ D)
    (hs : SameTables D σ'.mem σ''.mem) : Built d sz σ σ'' := by
  refine ⟨h.size, h.image.of_sameTables h.size hd hs, fun v h1 h2 => ?_⟩
  rw [(hs d hd).2 v h2]
  exact h.high v h1 h2

theorem allocuvm_image {oldsz newsz : Nat} (h : Sound L D X σ) (hd : d ∈ D)
    (himg : Image σ.mem d oldsz) (hold : oldsz ≤ sharedbase) :
    Spec E (allocuvm L d oldsz newsz) σ (fun r σ' =>
      Sound L D X σ' ∧ SameTables (D \ {d}) σ.mem σ'.mem ∧
      (r ≠ 0 → r = max oldsz newsz ∧ Built d r σ σ' ∧
        ∀ x, (oldsz + 4095) / 4096 ≤ x → x * 4096 < newsz →
          ∃ w, pteAt σ'.mem d x = some w ∧ user w = true) ∧
      (r = 0 → (oldsz = 0 ∧ newsz = 0) ∨ sharedbase ≤ newsz ∨
        σ.freelist.length < 2 * ((newsz + 4095) / 4096 - (oldsz + 4095) / 4096))) := by
  refine (allocuvm_spec h hd (fun x h1 h2 hnew hne => ?_)).mono (fun r σ' hr => ?_)
  · unfold sharedbase at hnew
    exact absurd (himg.above x (by omega) (by omega)) hne
  obtain ⟨h', hs, hcase⟩ := hr
  refine ⟨h', hs, fun hr => ?_, fun hr => ?_⟩
  · obtain ⟨_, rfl, _⟩ | ⟨_, hlt, rfl, rfl⟩ | ⟨hnew, hle, rfl, hfill, _⟩ | ⟨_, _, rfl, _⟩ := hcase
    · exact absurd rfl hr
    · exact ⟨(max_eq_left (by omega)).symm, ⟨hold, himg, fun _ _ _ => rfl⟩,
        fun x h1 h2 => by omega⟩
    · unfold sharedbase at hnew
      have hout : ∀ x < 1048576, ¬ ((oldsz + 4095) / 4096 ≤ x ∧ x * 4096 < r) →
          pteAt σ'.mem d x = pteAt σ.mem d x := hfill.outside
      refine ⟨(max_eq_right hle).symm, ⟨by unfold sharedbase; omega, ⟨fun v hv => ?_,
        fun v hv hge => ?_⟩, fun v h1 h2 => hout v h2 (by omega)⟩, fun x h1 h2 => ?_⟩
      · by_cases hlow : (oldsz + 4095) / 4096 ≤ v
        · obtain ⟨f, hf⟩ := hfill.inside v hlow hv
          rw [hf]
          exact Option.some_ne_none _
        · rw [hout v (by omega) (by omega)]
          exact himg.inside v (by omega)
      · rw [hout v (by omega) (by omega)]
        exact himg.above v hv (by omega)
      · obtain ⟨f, hf⟩ := hfill.inside x h1 h2
        exact ⟨_, hf, by rw [user_mk]; rfl⟩
    · exact absurd rfl hr
  · obtain ⟨hge, _, _⟩ | ⟨_, hlt, h0, _⟩ | ⟨_, hle, h0, _⟩ | ⟨_, _, _, hfew, _⟩ := hcase
    · exact Or.inr (Or.inl hge)
    · omega
    · exact Or.inl (by omega)
    · exact Or.inr (Or.inr hfew)

theorem half_lt (bs : List UInt8) (i : Nat) : half bs i < 65536 := by
  have h1 := (bs.getD i 0).toNat_lt
  have h2 := (bs.getD (i + 1) 0).toNat_lt
  unfold half
  omega

theorem word32_lt (bs : List UInt8) (i : Nat) : word32 bs i < 2 ^ 32 := by
  have h1 := half_lt bs i
  have h2 := half_lt bs (i + 2)
  unfold word32
  omega

/-- One round of the loop of `exec` over the program headers: every way out but the last
returns -1; a loadable header is `allocuvm` and `loaduvm`, then the rest. -/
theorem loadRound {file : List UInt8} {n off sz : Nat} {Q : Option Nat → Phys → Prop}
    (hbad : Q none σ)
    (hskip : ∀ bs, readi file off proghdrSize = some bs → (proghdr bs).type ≠ elfProgLoad →
      Spec E (loadSegments L d file n (u32 (off + proghdrSize)) sz) σ Q)
    (hload : ∀ bs ph, readi file off proghdrSize = some bs → ph = proghdr bs →
      ph.type = elfProgLoad → ph.filesz ≤ ph.memsz →
      Spec E (allocuvm L d sz (ph.vaddr + ph.memsz)) σ (fun sz' σ₁ => Q none σ₁ ∧
        (sz' ≠ 0 → ph.vaddr % 4096 = 0 →
          Spec E (loaduvm d ph.vaddr file ph.off ph.filesz) σ₁ (fun b σ₂ =>
            (b = false → Q none σ₂) ∧ (b = true →
              Spec E (loadSegments L d file n (u32 (off + proghdrSize)) sz') σ₂ Q))))) :
    Spec E (loadSegments L d file (n + 1) off sz) σ Q := by
  unfold loadSegments
  cases hread : readi file off proghdrSize with
  | none => exact Spec.pure hbad
  | some bs =>
    dsimp only
    by_cases hlen : bs.length ≠ proghdrSize
    · rw [if_pos hlen]
      exact Spec.pure hbad
    rw [if_neg hlen]
    by_cases htype : (proghdr bs).type ≠ elfProgLoad
    · rw [if_pos htype]
      exact hskip bs hread htype
    rw [if_neg htype]
    by_cases hmem : (proghdr bs).memsz < (proghdr bs).filesz
    · rw [if_pos hmem]
      exact Spec.pure hbad
    rw [if_neg hmem]
    by_cases hwrap : u32 ((proghdr bs).vaddr + (proghdr bs).memsz) < (proghdr bs).vaddr
    · rw [if_pos hwrap]
      exact Spec.pure hbad
    rw [if_neg hwrap]
    -- no wrap, so the segment ends where the C code thinks it does
    have hend : u32 ((proghdr bs).vaddr + (proghdr bs).memsz)
        = (proghdr bs).vaddr + (proghdr bs).memsz := by
      have h1 : (proghdr bs).vaddr < 2 ^ 32 := word32_lt bs 8
      have h2 : (proghdr bs).memsz < 2 ^ 32 := word32_lt bs 20
      unfold u32 at hwrap ⊢
      omega
    rw [hend]
    refine Spec.seq (hload bs _ hread rfl (not_not.mp htype) (not_lt.mp hmem))
      (fun sz' σ₁ hr => ?_)
    obtain ⟨hbad₁, hgo⟩ := hr
    by_cases hz : sz' = 0
    · rw [if_pos hz]
      exact Spec.pure hbad₁
    rw [if_neg hz]
    by_cases halign : (proghdr bs).vaddr % 4096 ≠ 0
    · rw [if_pos halign]
      exact Spec.pure hbad₁
    rw [if_neg halign]
    refine Spec.seq (hgo hz (not_not.mp halign)) (fun b σ₂ hr => ?_)
    cases b with
    | false => exact Spec.pure (hr.1 rfl)
    | true => exact hr.2 rfl

theorem loadSegments_spec {file : List UInt8} (hd : d ∈ D) : ∀ (n off sz : Nat) (σ : Phys),
    Sound L D X σ → Image σ.mem d sz → sz ≤ sharedbase →
    Spec E (loadSegments L d file n off sz) σ (fun r σ' =>
      Sound L D X σ' ∧ SameTables (D \ {d}) σ.mem σ'.mem ∧
      ∀ sz', r = some sz' → Built d sz' σ σ') := by
  intro n
  induction n with
  | zero =>
    intro off sz σ h himg hsz
    refine Spec.pure ⟨h, SameTables.refl _ _, fun sz' hr => ?_⟩
    rw [← Option.some.inj hr]
    exact ⟨hsz, himg, fun _ _ _ => rfl⟩
  | succ n ih =>
    intro off sz σ h himg hsz
    refine loadRound ⟨h, SameTables.refl _ _, fun _ hr => nomatch hr⟩
      (fun _ _ _ => ih _ sz σ h himg hsz) (fun bs ph _ _ _ hfile => ?_)
    refine (allocuvm_image h hd himg hsz).mono fun sz' σ₁ hr => ?_
    obtain ⟨h₁, hs₁, hgrow, _⟩ := hr
    refine ⟨⟨h₁, hs₁, fun _ hr => nomatch hr⟩, fun hz halign => ?_⟩
    obtain ⟨hmax, hb₁, _⟩ := hgrow hz
    have hle : sz' ≤ 1073741824 := hb₁.size
    refine (loaduvm_spec h₁ hd halign (by unfold sharedbase; omega)
      (fun x _ hx => hb₁.image.inside x (by omega))).mono fun b σ₂ hr => ?_
    obtain ⟨h₂, hs₂, _⟩ := hr
    have hb₂ := hb₁.of_sameTables hd hs₂
    have hs' : SameTables (D \ {d}) σ.mem σ₂.mem := hs₁.trans (hs₂.mono Set.sdiff_subset)
    refine ⟨fun _ => ⟨h₂, hs', fun _ hr => nomatch hr⟩, fun _ => ?_⟩
    refine (ih _ sz' σ₂ h₂ hb₂.image hb₂.size).mono (fun r σ₃ hr => ?_)
    obtain ⟨h₃, hs₃, hb₃⟩ := hr
    exact ⟨h₃, hs'.trans hs₃, fun sz'' hr => hb₂.trans (hb₃ sz'' hr)⟩

theorem execLoad_spec (file : Option (List UInt8)) (h : Sound L D X σ) :
    Spec E (execLoad L file) σ (fun r σ' => SameTables D σ.mem σ'.mem ∧
      ((r = none ∧ Sound L D X σ') ∨ ∃ d sz entry, r = some (d, sz, entry) ∧ d ∈ σ.freelist ∧
        d ∉ D ∧ Sound L (insert d D) X σ' ∧ sz ≤ sharedbase ∧ Image σ'.mem d sz ∧
        ∀ v, 262144 ≤ v → v < 1048576 → pteAt σ'.mem d v = kmapPte (kmap L) v)) := by
  have hbad : Spec E (pure none : Kern (Option (Nat × Nat × Nat))) σ (fun r σ' =>
      SameTables D σ.mem σ'.mem ∧
      ((r = none ∧ Sound L D X σ') ∨ ∃ d sz entry, r = some (d, sz, entry) ∧ d ∈ σ.freelist ∧
        d ∉ D ∧ Sound L (insert d D) X σ' ∧ sz ≤ sharedbase ∧ Image σ'.mem d sz ∧
        ∀ v, 262144 ≤ v → v < 1048576 → pteAt σ'.mem d v = kmapPte (kmap L) v)) :=
    Spec.pure ⟨SameTables.refl _ _, Or.inl ⟨rfl, h⟩⟩
  unfold execLoad
  cases file with
  | none => exact hbad
  | some file =>
    dsimp only
    cases readi file 0 elfhdrSize with
    | none => exact hbad
    | some bs =>
      dsimp only
      by_cases hhdr : bs.length ≠ elfhdrSize ∨ (elfhdr bs).magic ≠ elfMagic
      · rw [if_pos hhdr]
        exact hbad
      rw [if_neg hhdr]
      refine Spec.seq (setupkvm_spec h) (fun r σ₁ hr => ?_)
      obtain ⟨hs₁, ⟨rfl, h₁, _⟩ | ⟨d, rfl, hfree, hdD, h₁, hkern, _⟩⟩ := hr
      · exact Spec.pure ⟨hs₁, Or.inl ⟨rfl, h₁⟩⟩
      have hd : d ∈ insert d D := Set.mem_insert d D
      have hDd : insert d D \ {d} = D := Set.insert_sdiff_self_of_notMem hdD
      have himg : Image σ₁.mem d 0 := by
        refine ⟨fun v hv => absurd hv (Nat.not_lt_zero _), fun v hv _ => ?_⟩
        rw [hkern v (by omega)]
        exact kmapPte_user (Ram.data_lt (h.pool_of_free hfree)) (by omega)
      refine Spec.seq (loadSegments_spec hd _ _ 0 σ₁ h₁ himg (Nat.zero_le _))
        (fun r σ₂ hr => ?_)
      obtain ⟨h₂, hs₂, hb⟩ := hr
      rw [hDd] at hs₂
      cases r with
      | none =>
        refine Spec.seq (freevm_spec h₂ hd) (fun _ σ₃ hr => ?_)
        obtain ⟨h₃, hs₃, _⟩ := hr
        rw [hDd] at h₃ hs₃
        exact Spec.pure ⟨(hs₁.trans hs₂).trans hs₃, Or.inl ⟨rfl, h₃⟩⟩
      | some sz =>
        have hb := hb sz rfl
        exact Spec.pure ⟨hs₁.trans hs₂, Or.inr ⟨d, sz, _, rfl, hfree, hdD, h₂, hb.size,
          hb.image, fun v h1 h2 => (hb.high v h1 h2).trans (hkern v h2)⟩⟩

/-! ## The sharing -/

/-- The page of the parent that page `j` of a region starting at `start` comes
from; the address wraps at 2^32. -/
def srcPage (start j : Nat) : Nat := (start / 4096 + j) % 1048576

theorem srcPage_lt (start j : Nat) : srcPage start j < 1048576 := Nat.mod_lt _ (by decide)

theorem srcPage_succ (start j : Nat) : srcPage (u32 (start + 4096)) j = srcPage start (j + 1) := by
  unfold srcPage u32
  omega

/-- From `σ` to `σ'` the pages `v`, …, `v + k - 1` of `d` were mapped, writable
and for the user, to the frames `parent` has from `start` on. Of a `parent`
that is no live directory nothing is known. -/
structure Window (D : Set Nat) (d parent start v k : Nat) (σ σ' : Phys) : Prop where
  fits : v + k ≤ 524288
  others : SameTables (D \ {d}) σ.mem σ'.mem
  mapped : ∀ j < k, ∃ f, pteAt σ'.mem d (v + j) = some (f * 4096 ||| (pteW ||| pteU) ||| pteP) ∧
    (parent ∈ D \ {d} → ∃ w, pteAt σ.mem parent (srcPage start j) = some w ∧ pteFrame w = f)
  outside : ∀ x < 1048576, ¬ (v ≤ x ∧ x < v + k) → pteAt σ'.mem d x = pteAt σ.mem d x

variable {parent : Nat}

theorem Window.nil {start v : Nat} (hv : v ≤ 524288) : Window D d parent start v 0 σ σ :=
  ⟨by omega, SameTables.refl _ _, fun j hj => absurd hj (Nat.not_lt_zero j), fun _ _ _ => rfl⟩

theorem Window.cons {start v k f w : Nat} {σ₁ : Phys}
    (hedit : Edit D d (Function.update (pteAt σ.mem d) v
      (some (f * 4096 ||| (pteW ||| pteU) ||| pteP))) σ σ₁)
    (hw : pteAt σ.mem parent (srcPage start 0) = some w) (hf : pteFrame w = f)
    (h : Window D d parent (u32 (start + 4096)) (v + 1) k σ₁ σ') :
    Window D d parent start v (k + 1) σ σ' := by
  have hfits := h.fits
  refine ⟨by omega, hedit.others.trans h.others, fun j hj => ?_, fun x hx hout => ?_⟩
  · cases j with
    | zero =>
      refine ⟨f, ?_, fun _ => ⟨w, hw, hf⟩⟩
      rw [Nat.add_zero, h.outside v (by omega) (by omega), hedit.pte v (by omega),
        Function.update_self]
    | succ j =>
      obtain ⟨f', hf', hpar⟩ := h.mapped j (by omega)
      refine ⟨f', by rw [← hf']; congr 1; omega, fun hp => ?_⟩
      obtain ⟨w', hw', hfw'⟩ := hpar hp
      refine ⟨w', ?_, hfw'⟩
      rw [← srcPage_succ, ← (hedit.others parent hp).2 _ (srcPage_lt _ _)]
      exact hw'
  · rw [h.outside x hx (by omega), hedit.pte x hx, Function.update_of_ne (by omega)]

theorem mapWindow_spec {v f : Nat} (h : Sound L D X σ) (hd : d ∈ D) (hlow : 262144 ≤ v)
    (hv : v < 1048576) (hf : f < 1048576) (hremap : pteAt σ.mem d v ≠ none → E .remap) :
    Spec E (mappages d (v * 4096) 4096 (f * 4096) (pteW ||| pteU)) σ (fun b σ' =>
      (b = false ∧ σ' = σ ∧ σ.freelist = [] ∧ tabOf σ.mem d (v / 1024) = none) ∨
      (b = true ∧ pteAt σ.mem d v = none ∧ Sound L D X σ' ∧
        Edit D d (Function.update (pteAt σ.mem d) v
          (some (f * 4096 ||| (pteW ||| pteU) ||| pteP))) σ σ' ∧ OneTab d (v / 1024) σ σ')) := by
  have hone := mapOne_spec (E := E) h hd hv hf (show pteW ||| pteU < 4096 by decide)
    (fun hlt => by omega) hremap
  refine (hone.mono (fun b σ' hr => ?_)).of_run_eq (mappages_page hv _ _ σ)
  obtain hfail | ⟨hb, hnone, h', he, _, htab⟩ := hr
  · exact Or.inl hfail
  · rw [unhold_high hlow] at h'
    exact Or.inr ⟨hb, hnone, h', he, htab⟩

/-- One round of the inner loop of `access_shared_memory`: a page the parent does not have
ends it; a page it has is mapped. -/
theorem accessRound {va size fuel i vpage start : Nat} {Q : ShareResult → Phys → Prop}
    (hp : parent ≠ 0) (hi : i < size)
    (habsent : pteAt σ.mem parent (srcPage start 0) = none → Q .absent σ)
    (hpage : ∀ w, pteAt σ.mem parent (srcPage start 0) = some w → pteFrame w < 1048576 →
      Spec E (mappages d vpage 4096 (pteFrame w * 4096) (pteW ||| pteU)) σ (fun b σ₁ =>
        Spec E (if b = true then accessLoop L d parent va size fuel (u32 (i + 4096))
            (u32 (vpage + 4096)) (u32 (start + 4096))
          else do
            let _ ← deallocuvm L d (u32 (va + size)) va
            return .noMemory) σ₁ Q)) :
    Spec E (accessLoop L d parent va size (fuel + 1) i vpage start) σ Q := by
  unfold accessLoop
  rw [if_pos hi]
  refine Spec.seq_ok (walkpgdir_run hp start σ) ?_
  have hpdx : pdx start = srcPage start 0 / 1024 := by
    unfold pdx srcPage
    omega
  have hptx : ptx start = srcPage start 0 % 1024 := by
    unfold ptx srcPage
    omega
  cases htab : tabOf σ.mem parent (pdx start) with
  | none => exact Spec.pure (habsent (pteAt_none_of_tabOf (hpdx ▸ htab)))
  | some t =>
    dsimp only [Option.map_some]
    refine Spec.seq_ok (readPte_run _ σ) ?_
    dsimp only
    rw [hptx]
    have hpte : pteAt σ.mem parent (srcPage start 0)
        = if present (word σ.mem t (srcPage start 0 % 1024)) then
            some (word σ.mem t (srcPage start 0 % 1024)) else none :=
      pteAt_of_tabOf (hpdx ▸ htab)
    have hlt := word_lt σ.mem t (srcPage start 0 % 1024)
    generalize word σ.mem t (srcPage start 0 % 1024) = w at hpte hlt ⊢
    by_cases hpres : present w = true
    · rw [if_pos hpres]
      rw [if_pos hpres] at hpte
      refine Spec.seq (hpage w hpte ?_) (fun _ _ hr => hr)
      unfold pteFrame
      omega
    · rw [if_neg hpres]
      rw [if_neg hpres] at hpte
      exact Spec.pure (habsent hpte)

/-- The inner loop of `access_shared_memory`, with `n` pages to go. -/
theorem accessLoop_spec {va size : Nat} (hd : d ∈ D) (hnull : parent = 0 → E .nullDeref)
    (hsize : size < 2 ^ 32) : ∀ (n fuel i v start : Nat) (σ : Phys), Sound L D X σ →
    i + n * 4096 = size → n < fuel → 262144 ≤ v → v ≤ 524288 →
    pteAt σ.mem d 524288 ≠ none →
    (∀ x, v ≤ x → x < v + n → pteAt σ.mem d x ≠ none → E .remap) →
    (n ≤ σ.freelist.length ∨ ∀ e, E e) →
    Spec E (accessLoop L d parent va size fuel i (v * 4096) start) σ (fun r σ' =>
      (r = .noMemory ∧ σ.freelist.length < n) ∨
      (Sound L D X σ' ∧ σ.freelist.length ≤ σ'.freelist.length + n ∧
        ((r = .done ∧ Window D d parent start v n σ σ') ∨
         (r = .absent ∧ ∃ k < n, Window D d parent start v k σ σ' ∧
            (parent ∈ D \ {d} → pteAt σ.mem parent (srcPage start k) = none))))) := by
  intro n
  induction n with
  | zero =>
    intro fuel i v start σ h hi hfuel _ hv _ _ _
    cases fuel with
    | zero => omega
    | succ fuel =>
      unfold accessLoop
      rw [if_neg (by omega)]
      exact Spec.pure (Or.inr ⟨h, by omega, Or.inl ⟨rfl, Window.nil hv⟩⟩)
  | succ n ih =>
    intro fuel i v start σ h hi hfuel hlow hv hkern hremap hroom
    cases fuel with
    | zero => omega
    | succ fuel =>
      by_cases hp : parent = 0
      · unfold accessLoop
        rw [if_pos (by omega)]
        refine Spec.seq (Q := fun _ _ => False) (Spec.of_error (e := .nullDeref) ?_ (hnull hp))
          (fun _ _ hr => hr.elim)
        rw [hp]
        rfl
      refine accessRound hp (by omega) (fun hnone => ?_) (fun w hpte hf => ?_)
      · exact Or.inr ⟨h, by omega, Or.inr ⟨rfl, 0, by omega, Window.nil hv, fun _ => hnone⟩⟩
      refine (mapWindow_spec h hd hlow (by omega) hf
        (hremap v le_rfl (by omega))).mono (fun b σ₁ hb => ?_)
      obtain ⟨rfl, rfl, hempty, _⟩ | ⟨rfl, hnone, h₁, hedit, htab⟩ := hb
      · -- no frame for a page table: the cleanup may do anything
        have hany : ∀ e, E e := by
          obtain hroom | hany := hroom
          · rw [hempty] at hroom
            exact absurd hroom (by simp)
          · exact hany
        rw [if_neg (by simp)]
        refine Spec.seq (Spec.any hany) (fun _ σ₂ _ => Spec.pure (Or.inl ⟨rfl, ?_⟩))
        rw [hempty]
        exact Nat.succ_pos n
      · have hlen := htab.length_le
        have hvlt : v < 524288 := by
          by_contra hge
          have hv' : v = 524288 := by omega
          rw [hv'] at hnone
          exact hkern hnone
        have hnext : u32 (v * 4096 + 4096) = (v + 1) * 4096 := by
          unfold u32
          omega
        have hi' : u32 (i + 4096) = i + 4096 := by
          unfold u32
          omega
        have hsame : ∀ x < 1048576, x ≠ v → pteAt σ₁.mem d x = pteAt σ.mem d x := by
          intro x hx hne
          rw [hedit.pte x hx, Function.update_of_ne hne]
        rw [if_pos rfl, hnext, hi']
        refine (ih fuel (i + 4096) (v + 1) (u32 (start + 4096)) σ₁ h₁ (by omega)
          (by omega) (by omega) (by omega) ?_ ?_ ?_).mono
          (fun r σ₂ hr => ?_)
        · rw [hsame _ (by omega) (by omega)]
          exact hkern
        · intro x h1 h2 hne
          by_cases hx : x < 1048576
          · rw [hsame x hx (by omega)] at hne
            exact hremap x (by omega) (by omega) hne
          · exact hremap 524288 (by omega) (by omega) hkern
        · obtain hroom | hany := hroom
          · exact Or.inl (by omega)
          · exact Or.inr hany
        · obtain ⟨rfl, hfew⟩ | ⟨h₂, hlen₂, ⟨rfl, hwin⟩ | ⟨rfl, k, hk, hwin, hend⟩⟩ := hr
          · exact Or.inl ⟨rfl, by omega⟩
          · exact Or.inr ⟨h₂, by omega, Or.inl ⟨rfl, Window.cons hedit hpte rfl hwin⟩⟩
          · refine Or.inr ⟨h₂, by omega, Or.inr ⟨rfl, k + 1, by omega,
              Window.cons hedit hpte rfl hwin, fun hpar => ?_⟩⟩
            rw [← srcPage_succ, ← (hedit.others parent hpar).2 _ (srcPage_lt _ _)]
            exact hend hpar

/-- The number of pages the sharing maps for an entry. -/
def Shared.pages (e : Shared) : Nat := Shared.span e / 4096

theorem span_eq (e : Shared) : Shared.span e = Shared.pages e * 4096 := by
  unfold Shared.pages Shared.span pgroundup
  omega

theorem pages_lt (e : Shared) : Shared.pages e < 1048576 := by
  unfold Shared.pages Shared.span pgroundup u32
  omega

theorem pages_eq {e : Shared} (hpos : 0 < e.size) (hle : e.size ≤ 2147483648) :
    Shared.pages e = (e.size.toNat + 4095) / 4096 := by
  have hmod : e.size.emod (2 ^ 32) = e.size := Int.emod_eq_of_lt (by omega) (by omega)
  unfold Shared.pages Shared.span
  rw [hmod]
  unfold pgroundup u32
  omega

/-- The pages the sharing maps for a list of entries, at most. -/
def totalPages (es : List Shared) : Nat := (es.map Shared.pages).sum

/-- The entry once its region went to page `b`. -/
def Shared.moved (e : Shared) (b : Nat) : Shared :=
  { e with memstart := b * 4096 + e.memstart % 4096 }

/-- The sharing of the entries from page `b` of the window on: how it ended and
the entries afterwards. It ends at the first free entry, or at a page the
parent does not have. -/
inductive Accessed (D : Set Nat) (d parent : Nat) :
    Nat → List Shared → ShareResult → List Shared → Phys → Phys → Prop
  | nil {b : Nat} {σ : Phys} : Accessed D d parent b [] .done [] σ σ
  | free {b : Nat} {e : Shared} {es : List Shared} {σ : Phys} : e.size = 0 →
      Accessed D d parent b (e :: es) .done (e :: es) σ σ
  | stopped {b k : Nat} {e : Shared} {es : List Shared} {σ σ' : Phys} : e.size ≠ 0 →
      k < Shared.pages e → Window D d parent e.memstart b k σ σ' →
      (parent ∈ D \ {d} → pteAt σ.mem parent (srcPage e.memstart k) = none) →
      Accessed D d parent b (e :: es) .absent (e :: es) σ σ'
  | region {b : Nat} {e : Shared} {es es' : List Shared} {r : ShareResult} {σ σ₁ σ' : Phys} :
      e.size ≠ 0 → Window D d parent e.memstart b (Shared.pages e) σ σ₁ →
      Accessed D d parent (b + Shared.pages e) es r es' σ₁ σ' →
      Accessed D d parent b (e :: es) r (Shared.moved e b :: es') σ σ'

section Accessed

variable {b : Nat} {r : ShareResult} {es es' : List Shared}

theorem Accessed.length_eq (h : Accessed D d parent b es r es' σ σ') :
    es'.length = es.length := by
  induction h with
  | nil => rfl
  | free _ => rfl
  | stopped _ _ _ _ => rfl
  | region _ _ _ ih => simp [ih]

theorem Accessed.others (h : Accessed D d parent b es r es' σ σ') :
    SameTables (D \ {d}) σ.mem σ'.mem := by
  induction h with
  | nil => exact SameTables.refl _ _
  | free _ => exact SameTables.refl _ _
  | stopped _ _ hwin _ => exact hwin.others
  | region _ hwin _ ih => exact hwin.others.trans ih

theorem Accessed.outside (h : Accessed D d parent b es r es' σ σ') :
    ∀ x < 1048576, x < b ∨ 524288 ≤ x → pteAt σ'.mem d x = pteAt σ.mem d x := by
  induction h with
  | nil => exact fun _ _ _ => rfl
  | free _ => exact fun _ _ _ => rfl
  | stopped _ _ hwin _ =>
    intro x hx hout
    have := hwin.fits
    exact hwin.outside x hx (by omega)
  | region _ hwin _ ih =>
    intro x hx hout
    have := hwin.fits
    rw [ih x hx (by omega), hwin.outside x hx (by omega)]

end Accessed

theorem accessEntries_spec (hd : d ∈ D) (hnull : parent = 0 → E .nullDeref) :
    ∀ (es : List Shared) (b : Nat) (σ : Phys), Sound L D X σ → 262144 ≤ b → b ≤ 524288 →
    pteAt σ.mem d 524288 ≠ none →
    (∀ x, b ≤ x → x < b + totalPages es → pteAt σ.mem d x ≠ none → E .remap) →
    (totalPages es ≤ σ.freelist.length ∨ ∀ e, E e) →
    Spec E (accessEntries L d parent (b * 4096) es) σ (fun r σ' =>
      (r.1 = .noMemory ∧ σ.freelist.length < totalPages es) ∨
      (r.1 ≠ .noMemory ∧ Sound L D X σ' ∧ Accessed D d parent b es r.1 r.2 σ σ' ∧
        σ.freelist.length ≤ σ'.freelist.length + totalPages es)) := by
  intro es
  induction es with
  | nil =>
    intro b σ h _ _ _ _ _
    exact Spec.pure (Or.inr ⟨by decide, h, .nil, by simp [totalPages]⟩)
  | cons e es ih =>
    intro b σ h hlow hb hkern hremap hroom
    have htotal : totalPages (e :: es) = Shared.pages e + totalPages es := by
      simp [totalPages]
    rw [htotal] at hremap hroom ⊢
    unfold accessEntries
    by_cases hfree : e.size = 0
    · rw [if_pos hfree]
      exact Spec.pure (Or.inr ⟨by simp, h, .free hfree, by omega⟩)
    rw [if_neg hfree]
    have hround : pgroundup (b * 4096) = b * 4096 := by
      unfold pgroundup u32
      omega
    rw [hround, span_eq]
    have hpages := pages_lt e
    refine Spec.seq (accessLoop_spec hd hnull (by omega) (Shared.pages e) pageFuel 0 b e.memstart σ h
      (by omega) (by unfold pageFuel; omega) hlow hb hkern
      (fun x h1 h2 => hremap x h1 (by omega)) ?_) (fun r σ₁ hr => ?_)
    · obtain hroom | hany := hroom
      · exact Or.inl (by omega)
      · exact Or.inr hany
    obtain ⟨rfl, hfew⟩ | ⟨h₁, hlen, ⟨rfl, hwin⟩ | ⟨rfl, k, hk, hwin, hend⟩⟩ := hr
    · rw [if_neg (by decide)]
      exact Spec.pure (Or.inl ⟨rfl, by omega⟩)
    · rw [if_pos rfl]
      have hfits := hwin.fits
      have hnext : u32 (b * 4096 + Shared.pages e * 4096) = (b + Shared.pages e) * 4096 := by
        unfold u32
        omega
      rw [hnext]
      have hsame : ∀ x < 1048576, ¬ (b ≤ x ∧ x < b + Shared.pages e) →
          pteAt σ₁.mem d x = pteAt σ.mem d x := hwin.outside
      refine Spec.seq (ih (b + Shared.pages e) σ₁ h₁ (by omega) (by omega) ?_ ?_ ?_)
        (fun r' σ₂ hr => ?_)
      · rw [hsame _ (by omega) (by omega)]
        exact hkern
      · intro x h1 h2 hne
        by_cases hx : x < 1048576
        · rw [hsame x hx (by omega)] at hne
          exact hremap x (by omega) (by omega) hne
        · exact hremap 524288 (by omega) (by omega) hkern
      · obtain hroom | hany := hroom
        · exact Or.inl (by omega)
        · exact Or.inr hany
      · have hmoved : u32 (b * 4096 + pteFlags e.memstart) = b * 4096 + e.memstart % 4096 := by
          unfold u32 pteFlags
          omega
        obtain ⟨hr1, hfew⟩ | ⟨hr1, h₂, hacc, hlen₂⟩ := hr
        · exact Spec.pure (Or.inl ⟨hr1, by omega⟩)
        · refine Spec.pure (Or.inr ⟨hr1, h₂, ?_, by omega⟩)
          dsimp only
          rw [hmoved]
          exact .region hfree hwin hacc
    · rw [if_neg (by decide)]
      exact Spec.pure (Or.inr ⟨by simp, h₁, .stopped hfree hk hwin hend, by omega⟩)

/-- The test of `exec` on the arguments. -/
def asksSharing : List CString → Bool
  | [] => false
  | arg :: _ => sharingName arg

/-- The middle of `exec`: without argv[0] it crashes, without a sharing name it
does nothing. -/
theorem execShare_spec {q : Proc} {argv : List CString} (h : Sound L D X σ) (hd : d ∈ D)
    (hargv : argv = [] → E .nullDeref) (hnull : q.parentPgdir = 0 → E .nullDeref)
    (hkern : pteAt σ.mem d 524288 ≠ none)
    (hremap : ∀ x, 262144 ≤ x → x < 262144 + totalPages q.shared.entries →
      pteAt σ.mem d x ≠ none → E .remap)
    (hroom : totalPages q.shared.entries ≤ σ.freelist.length ∨ ∀ e, E e) :
    Spec E (execShare L q d argv) σ (fun r σ' =>
      (r.1 = .noMemory ∧ σ.freelist.length < totalPages q.shared.entries) ∨
      (r.1 ≠ .noMemory ∧ Sound L D X σ' ∧
        ((asksSharing argv = false ∧ r = (.done, q.shared.entries) ∧ σ' = σ) ∨
         (asksSharing argv = true ∧
          Accessed D d q.parentPgdir 262144 q.shared.entries r.1 r.2 σ σ')) ∧
        σ.freelist.length ≤ σ'.freelist.length + totalPages q.shared.entries)) := by
  unfold execShare
  cases argv with
  | nil => exact Spec.throw (hargv rfl)
  | cons arg args =>
    dsimp only
    by_cases hname : sharingName arg = true
    · rw [if_pos hname]
      refine (accessEntries_spec hd hnull q.shared.entries 262144 σ h le_rfl (by decide) hkern
        hremap hroom).mono (fun r σ' hr => ?_)
      obtain hr | ⟨hr, h', hacc, hlen⟩ := hr
      · exact Or.inl hr
      · exact Or.inr ⟨hr, h', Or.inr ⟨hname, hacc⟩, hlen⟩
    · rw [if_neg hname]
      exact Spec.pure (Or.inr ⟨by simp, h, Or.inl ⟨Bool.eq_false_iff.mpr hname, rfl, rfl⟩,
        by omega⟩)

/-! ## The stack -/

/-- The bytes an argument takes on the stack, at most. -/
def argBytes (argv : List CString) : Nat := (argv.map fun arg => arg.bytes.length + 4).sum

/-- A write of at most `n` bytes below the stack pointer `sp`: inside the image,
or wrapped to the kernel's half, where it fails. -/
theorem copyout_below {sz sp n va : Nat} {bs : List UInt8} (h : Sound L D X σ) (hd : d ∈ D)
    (himg : Image σ.mem d sz) (hsz : sz ≤ sharedbase) (hker : KernelOnly σ.mem d) (hsp : sp ≤ sz)
    (hn : n ≤ 1073741824) (hbs : 0 < bs.length) (hlen : bs.length ≤ n)
    (hva : va ≤ u32 (sp + 2 ^ 32 - n)) (hva' : u32 (sp + 2 ^ 32 - n) ≤ va + 3)
    (hnull : ¬ E .nullDeref → n + 3 ≤ sp) :
    Spec E (copyout d va bs) σ (fun b σ' =>
      Sound L D X σ' ∧ SameTables D σ.mem σ'.mem ∧ σ'.freelist = σ.freelist ∧
      (b = true → va + n ≤ sp ∧ sp ≤ va + n + 3) ∧
      (n + 3 ≤ sp → (∀ v, (sp - (n + 3)) / 4096 ≤ v → v * 4096 < sp →
        ∃ w, pteAt σ.mem d v = some w ∧ user w = true) → b = true)) := by
  unfold sharedbase at hsz
  unfold u32 at hva hva'
  by_cases hfit : n ≤ sp
  · refine (copyout_spec h hd (Or.inl (by unfold sharedbase; omega)) hker ?_).mono
      (fun b σ' hr => ?_)
    · intro hx
      obtain ⟨x, _, hx, hnone⟩ := hx
      exact absurd hnone (himg.inside x (by omega))
    · obtain ⟨h', hs, hfree, _, hall⟩ := hr
      exact ⟨h', hs, hfree, fun _ => by omega,
        fun _ huser => hall (fun x h1 h2 => huser x (by omega) (by omega))⟩
  · have hhigh : kernbase ≤ va ∧ va < 2 ^ 32 := by
      unfold kernbase
      omega
    refine (copyout_spec h hd (Or.inr hhigh) hker (fun _ => ?_)).mono (fun b σ' hr => ?_)
    · by_contra hc
      have := hnull hc
      omega
    · obtain ⟨h', hs, hfree, hlow, _⟩ := hr
      refine ⟨h', hs, hfree, fun hb => ?_, fun hc => by omega⟩
      obtain hnil | hle := hlow hb
      · rw [hnil] at hbs
        exact absurd hbs (by decide)
      · have := hhigh.1
        unfold kernbase sharedbase at *
        omega

/-- The loop of `exec` that pushes the argument strings. -/
theorem pushArgs_spec {sz : Nat} (hd : d ∈ D) (hsz : sz ≤ sharedbase) :
    ∀ (argv : List CString) (sp : Nat) (σ : Phys), Sound L D X σ → Image σ.mem d sz →
    KernelOnly σ.mem d → sp ≤ sz → (∀ arg ∈ argv, arg.bytes.length < sharedbase) →
    (¬ E .nullDeref → argBytes argv ≤ sp) →
    Spec E (pushArgs d sp argv) σ (fun r σ' =>
      Sound L D X σ' ∧ SameTables D σ.mem σ'.mem ∧ σ'.freelist = σ.freelist ∧
      (∀ sp' addrs, r = some (sp', addrs) → sp' ≤ sp ∧ sp ≤ sp' + argBytes argv ∧
        addrs.length = argv.length) ∧
      (argBytes argv ≤ sp → (∀ v, (sp - argBytes argv) / 4096 ≤ v → v * 4096 < sp →
        ∃ w, pteAt σ.mem d v = some w ∧ user w = true) → r ≠ none)) := by
  intro argv
  induction argv with
  | nil =>
    intro sp σ h _ _ _ _ _
    refine Spec.pure ⟨h, SameTables.refl _ _, rfl, fun sp' addrs hr => ?_, fun _ _ => by simp⟩
    have := Option.some.inj hr
    cases this
    exact ⟨le_rfl, by omega, rfl⟩
  | cons arg args ih =>
    intro sp σ h himg hker hsp hargs hnull
    have hlen : arg.bytes.length < 1073741824 := hargs arg List.mem_cons_self
    have hsum : argBytes (arg :: args) = arg.bytes.length + 4 + argBytes args := by
      simp [argBytes]
    rw [hsum] at hnull ⊢
    unfold pushArgs
    dsimp only
    generalize hva : u32 (sp + 2 ^ 32 - (arg.bytes.length + 1)) / 4 * 4 = sp₁
    refine Spec.seq (copyout_below h hd himg hsz hker hsp (n := arg.bytes.length + 1) (by omega)
      (by simp) (by simp) (by omega) (by omega) (fun hc => by have := hnull hc; omega))
      (fun b σ₁ hr => ?_)
    obtain ⟨h₁, hs₁, hfree, hfit, hall⟩ := hr
    cases b with
    | false =>
      refine Spec.pure ⟨h₁, hs₁, hfree, fun _ _ hr => (nomatch hr), fun hle huser => ?_⟩
      have := hall (by omega) (fun v h1 h2 => huser v (by omega) h2)
      exact absurd this (by decide)
    | true =>
      have hsp₁ := hfit rfl
      rw [if_pos rfl]
      refine Spec.seq (ih sp₁ σ₁ h₁ (himg.of_sameTables hsz hd hs₁) (hker.congr hd hs₁)
        (by omega) (fun a ha => hargs a (List.mem_cons_of_mem _ ha))
        (fun hc => by have := hnull hc; omega)) (fun r σ₂ hr => ?_)
      obtain ⟨h₂, hs₂, hfree₂, hsome, hok⟩ := hr
      have hs := hs₁.trans hs₂
      cases r with
      | none =>
        refine Spec.pure ⟨h₂, hs, hfree₂.trans hfree, fun _ _ hr => (nomatch hr),
          fun hle huser => absurd rfl (hok (by omega) (fun v h1 h2 => ?_))⟩
        unfold sharedbase at hsz
        rw [(hs₁ d hd).2 v (by omega)]
        exact huser v (by omega) (by omega)
      | some p =>
        obtain ⟨sp₂, addrs⟩ := p
        obtain ⟨h1, h2, h3⟩ := hsome sp₂ addrs rfl
        refine Spec.pure ⟨h₂, hs, hfree₂.trans hfree, fun sp' addrs' hr => ?_,
          fun _ _ => by simp⟩
        have := Option.some.inj hr
        cases this
        exact ⟨by omega, by omega, by simp [h3]⟩

theorem ustack_length (sp : Nat) (addrs : List Nat) :
    ((ustack sp addrs).flatMap bytesOf).length = (3 + addrs.length + 1) * 4 := by
  have hall : ∀ ws : List Nat, (ws.flatMap bytesOf).length = ws.length * 4 := by
    intro ws
    induction ws with
    | nil => rfl
    | cons w ws ih =>
      rw [List.flatMap_cons, List.length_append, ih, List.length_cons]
      show 4 + ws.length * 4 = _
      omega
  rw [hall]
  simp [ustack]
  omega

/-- The arguments and their array fit one page. -/
def SmallArgs (argv : List CString) : Prop := argBytes argv + 4 * argv.length + 19 ≤ 4096

/-- `execStack` allocates the stack and pushes the arguments. -/
theorem execStack_eq (L : Layout) (d sz : Nat) (argv : List CString) :
    execStack L d sz argv = (do
      match ← allocStack L d sz with
      | none => return none
      | some sz' =>
        match ← pushStack d sz' argv with
        | none => return none
        | some sp => return some (sz', sp)) := by
  unfold execStack allocStack pushStack
  rw [bind_assoc]
  congr 1
  funext sz'
  by_cases hz : sz' = 0
  · rw [if_pos hz, if_pos hz, pure_bind]
  · rw [if_neg hz, if_neg hz, bind_assoc]
    congr 1
    funext _
    rw [pure_bind]
    dsimp only
    rw [bind_assoc]
    congr 1
    funext r
    cases r with
    | none => rw [pure_bind]
    | some q =>
      obtain ⟨sp, addrs⟩ := q
      dsimp only
      rw [bind_assoc]
      congr 1
      funext b
      cases b <;> rfl

/-- The stack of an image: page `top` is the guard and the next one the user's. -/
structure Stack (m : Mem) (d top : Nat) : Prop where
  guard : ∃ w, pteAt m d top = some w ∧ user w = false
  page : ∃ w, pteAt m d (top + 1) = some w ∧ user w = true

theorem Stack.of_sameTables {top : Nat} (h : Stack σ.mem d top) (hd : d ∈ D) (htop : top < 262144)
    (hs : SameTables D σ.mem σ'.mem) : Stack σ'.mem d top := by
  obtain ⟨⟨w, hw, hu⟩, ⟨w', hw', hu'⟩⟩ := h
  exact ⟨⟨w, ((hs d hd).2 _ (by omega)).trans hw, hu⟩,
    ⟨w', ((hs d hd).2 _ (by omega)).trans hw', hu'⟩⟩

/-- The allocation of the stack as two steps on pages: `top` is the first page above the
image. -/
theorem allocStack_steps {sz : Nat} {Q : Option Nat → Phys → Prop} (himg : Image σ.mem d sz)
    (hsz : sz ≤ sharedbase)
    (hsteps : ∀ top, top = (sz + 4095) / 4096 → Image σ.mem d (top * 4096) →
      Spec E (allocuvm L d (top * 4096) ((top + 2) * 4096)) σ (fun r σ₁ =>
        (r = 0 → Q none σ₁) ∧ (r ≠ 0 → r = (top + 2) * 4096 ∧
          Spec E (clearpteu d (top * 4096)) σ₁ (fun _ σ₂ => Q (some r) σ₂)))) :
    Spec E (allocStack L d sz) σ Q := by
  have hsz' : sz ≤ 1073741824 := hsz
  have hround : pgroundup sz = (sz + 4095) / 4096 * 4096 := by
    unfold pgroundup u32
    omega
  have hnew : u32 (pgroundup sz + 8192) = ((sz + 4095) / 4096 + 2) * 4096 := by
    rw [hround]
    unfold u32
    omega
  unfold allocStack
  rw [hnew, hround]
  refine Spec.seq (hsteps _ rfl ⟨fun v hv => himg.inside v (by omega), fun v hv hge =>
    himg.above v hv (by omega)⟩) (fun r σ₁ hr => ?_)
  by_cases hr0 : r = 0
  · rw [if_pos hr0]
    exact Spec.pure (hr.1 hr0)
  rw [if_neg hr0]
  obtain ⟨hr, hclear⟩ := hr.2 hr0
  have hguard : u32 (r + 2 ^ 32 - 8192) = (sz + 4095) / 4096 * 4096 := by
    rw [hr]
    unfold u32
    omega
  rw [hguard]
  exact Spec.seq hclear fun _ _ hr => Spec.pure hr

/-- The allocation of the stack, above the last page of the image. -/
theorem allocStack_spec {sz : Nat} (h : Sound L D X σ) (hd : d ∈ D) (himg : Image σ.mem d sz)
    (hsz : sz ≤ sharedbase) :
    Spec E (allocStack L d sz) σ (fun r σ' =>
      Sound L D X σ' ∧ SameTables (D \ {d}) σ.mem σ'.mem ∧
      (∀ sz', r = some sz' → Built d sz' σ σ' ∧ sz' = ((sz + 4095) / 4096 + 2) * 4096 ∧
        Stack σ'.mem d ((sz + 4095) / 4096)) ∧
      (sz + 16384 ≤ sharedbase → 4 ≤ σ.freelist.length → r ≠ none)) := by
  have hsz' : sz ≤ 1073741824 := hsz
  refine allocStack_steps himg hsz fun top htop himg' => ?_
  rw [← htop]
  refine (allocuvm_image h hd himg' (by unfold sharedbase; omega)).mono fun r σ₁ hr => ?_
  obtain ⟨h₁, hs₁, hgrow, hzero⟩ := hr
  refine ⟨fun hr0 => ⟨h₁, hs₁, fun _ hr => (nomatch hr), fun hsmall hfree => ?_⟩, fun hr0 => ?_⟩
  · unfold sharedbase at hsmall hzero
    obtain hz | hz | hz := hzero hr0 <;> omega
  obtain ⟨hmax, hb₁, huser⟩ := hgrow hr0
  have hr : r = (top + 2) * 4096 := by
    rw [hmax, max_eq_right (by omega)]
  subst hr
  have hle : (top + 2) * 4096 ≤ 1073741824 := hb₁.size
  obtain ⟨w, hw⟩ := Option.ne_none_iff_exists'.mp (hb₁.image.inside top (by omega))
  refine ⟨rfl, (clearpteu_spec h₁ hd (by omega) hw).mono fun _ σ₂ hr => ?_⟩
  obtain ⟨h₂, hedit, _⟩ := hr
  have hsame : ∀ x < 1048576, x ≠ top → pteAt σ₂.mem d x = pteAt σ₁.mem d x := by
    intro x hx hne
    rw [hedit.pte x hx, Function.update_of_ne hne]
  have hpte : pteAt σ₂.mem d top = some (dropUser w) := by
    rw [hedit.pte top (by omega), Function.update_self]
  refine ⟨h₂, hs₁.trans hedit.others, fun sz' hr => ?_, fun _ _ => by simp⟩
  cases hr
  refine ⟨⟨hb₁.size, ⟨fun v hv => ?_, fun v hv hge => ?_⟩, fun v h1 h2 => ?_⟩, rfl,
    ⟨_, hpte, user_dropUser w⟩, ?_⟩
  · by_cases hv' : v = top
    · rw [hv', hpte]
      exact Option.some_ne_none _
    · rw [hsame v (by omega) hv']
      exact hb₁.image.inside v hv
  · rw [hsame v (by omega) (by omega)]
    exact hb₁.image.above v hv hge
  · rw [hsame v h2 (by omega)]
    exact hb₁.high v h1 h2
  · rw [hsame (top + 1) (by omega) (by omega)]
    exact huser (top + 1) (by omega) (by omega)

theorem pushStack_spec {top : Nat} {argv : List CString} (h : Sound L D X σ) (hd : d ∈ D)
    (himg : Image σ.mem d ((top + 2) * 4096)) (hsz : (top + 2) * 4096 ≤ sharedbase)
    (hker : KernelOnly σ.mem d) (hstack : Stack σ.mem d top) (hlen : argv.length < 32)
    (hargs : ∀ arg ∈ argv, arg.bytes.length < sharedbase)
    (hnull : ¬ E .nullDeref → SmallArgs argv) :
    Spec E (pushStack d ((top + 2) * 4096) argv) σ (fun r σ' =>
      Sound L D X σ' ∧ SameTables D σ.mem σ'.mem ∧ (SmallArgs argv → r ≠ none)) := by
  have hle : (top + 2) * 4096 ≤ 1073741824 := hsz
  unfold pushStack
  refine Spec.seq (pushArgs_spec hd hsz argv _ σ h himg hker le_rfl hargs
    (fun hc => by have := hnull hc; unfold SmallArgs at this; omega)) (fun r σ₁ hr => ?_)
  obtain ⟨h₁, hs₁, _, hsome, hok⟩ := hr
  cases r with
  | none =>
    refine Spec.pure ⟨h₁, hs₁, fun hsmall => ?_⟩
    unfold SmallArgs at hsmall
    refine absurd rfl (hok (by omega) (fun v h1 h2 => ?_))
    have hv : v = top + 1 := by omega
    rw [hv]
    exact hstack.page
  | some q =>
    obtain ⟨sp, addrs⟩ := q
    obtain ⟨hsp, hsp', haddrs⟩ := hsome sp addrs rfl
    dsimp only
    have himg₁ := himg.of_sameTables hsz hd hs₁
    refine Spec.seq (copyout_below (n := (3 + addrs.length + 1) * 4) h₁ hd himg₁ hsz
      (hker.congr hd hs₁) hsp (by omega) (by rw [ustack_length]; omega)
      (by rw [ustack_length]) le_rfl (by omega) (fun hc => ?_)) (fun b σ₂ hr => ?_)
    · have := hnull hc
      unfold SmallArgs at this
      omega
    · obtain ⟨h₂, hs₂, _, _, hall⟩ := hr
      cases b with
      | true => exact Spec.pure ⟨h₂, hs₁.trans hs₂, fun _ => by simp⟩
      | false =>
        refine Spec.pure ⟨h₂, hs₁.trans hs₂, fun hsmall => ?_⟩
        unfold SmallArgs at hsmall
        have := hall (by omega) (fun v h1 h2 => by
          have hv : v = top + 1 := by omega
          rw [hv]
          exact (hstack.of_sameTables hd (by omega) hs₁).page)
        exact absurd this (by decide)

theorem execStack_spec {sz : Nat} {argv : List CString} (h : Sound L D X σ) (hd : d ∈ D)
    (himg : Image σ.mem d sz) (hsz : sz ≤ sharedbase) (hker : KernelOnly σ.mem d)
    (hlen : argv.length < 32) (hargs : ∀ arg ∈ argv, arg.bytes.length < sharedbase)
    (hnull : ¬ E .nullDeref → SmallArgs argv) :
    Spec E (execStack L d sz argv) σ (fun r σ' =>
      Sound L D X σ' ∧ SameTables (D \ {d}) σ.mem σ'.mem ∧
      (∀ sz' sp, r = some (sz', sp) → Built d sz' σ σ') ∧
      (SmallArgs argv → sz + 16384 ≤ sharedbase → 4 ≤ σ.freelist.length → r ≠ none)) := by
  rw [execStack_eq]
  refine Spec.seq (allocStack_spec h hd himg hsz) (fun r σ₁ hr => ?_)
  obtain ⟨h₁, hs₁, hsome, hroom⟩ := hr
  cases r with
  | none =>
    exact Spec.pure ⟨h₁, hs₁, fun _ _ hr => (nomatch hr),
      fun _ hsmall hfree => absurd rfl (hroom hsmall hfree)⟩
  | some sz' =>
    obtain ⟨hb, rfl, hstack⟩ := hsome sz' rfl
    have hker₁ : KernelOnly σ₁.mem d := by
      intro x h1 h2 w hw
      rw [hb.high x (by omega) h2] at hw
      exact hker x h1 h2 w hw
    refine Spec.seq (pushStack_spec h₁ hd hb.image hb.size hker₁ hstack hlen hargs hnull)
      (fun r σ₂ hr => ?_)
    obtain ⟨h₂, hs₂, hok⟩ := hr
    have hs' := hs₁.trans (hs₂.mono Set.sdiff_subset)
    cases r with
    | none =>
      exact Spec.pure ⟨h₂, hs', fun _ _ hr => (nomatch hr),
        fun hsmall _ _ => absurd rfl (hok hsmall)⟩
    | some sp =>
      refine Spec.pure ⟨h₂, hs', fun sz'' sp' hr => ?_, fun _ _ _ => by simp⟩
      cases hr
      exact hb.of_sameTables hd hs₂

end

end Xv6Sharing.Process
