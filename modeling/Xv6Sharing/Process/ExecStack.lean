/-
Xv6Sharing.Process.ExecStack — the calls of `copyout` that `exec` makes while it
pushes the arguments (kernel/exec.c, kernel/vm.c).

A string goes to the address below the stack pointer, computed modulo 2^32. If
the stack page has room for it, it is written there. If it has not, but the
address does not wrap, the range ends in the guard page and `copyout` returns -1
when it gets there, after it may have written user pages of the image. If the
address wraps, it lies in the kernel half of the address space. There the pages
of DEVSPACE are present and not the user's, and `copyout` returns -1; but below
DEVSPACE there is no page-table page, `walkpgdir` returns 0, and `uva2ka` reads
through it. So the calls are proper as long as no string that is reached is
longer than the stack pointer by more than 32 MB.

How the proof goes. `NewImage` says what the page table of a new image looks like;
no call changes a page table. `proper_below` and `proper_high` settle one call by
the region its address lies in, and `stringCalls_iff` follows the loop over the
strings.
-/
import Xv6Sharing.Process.Arguments
import Xv6Sharing.Process.NewImage

namespace Xv6Sharing.Process

open Lib Vm Share

/-! ## The calls -/

/-- Where `exec` puts a string, below stack pointer `sp`. -/
def stringAddr (sp : Nat) (arg : CString) : Nat :=
  u32 (sp + 2 ^ 32 - (arg.bytes.length + 1)) / 4 * 4

/-- The loop over the strings, started in `σ`, calls `copyout` with `va` and `bs` in `σ'`. -/
inductive StringCall (d : Nat) : Nat → List CString → Phys → Nat → List UInt8 → Phys → Prop
  | here {sp : Nat} {arg : CString} {args : List CString} {σ : Phys} :
      StringCall d sp (arg :: args) σ (stringAddr sp arg) (arg.bytes ++ [0]) σ
  | later {sp va : Nat} {arg : CString} {args : List CString} {bs : List UInt8} {σ σ₁ σ' : Phys} :
      copyout d (stringAddr sp arg) (arg.bytes ++ [0]) σ = .ok (true, σ₁) →
      StringCall d (stringAddr sp arg) args σ₁ va bs σ' →
      StringCall d sp (arg :: args) σ va bs σ'

/-- The calls of `copyout` that `exec` makes for a new image of size `sz`: one for each
string, and one for the words below them. -/
inductive StackCall (d sz : Nat) (argv : List CString) (σ : Phys) :
    Nat → List UInt8 → Phys → Prop
  | string {va : Nat} {bs : List UInt8} {σ' : Phys} : StringCall d sz argv σ va bs σ' →
      StackCall d sz argv σ va bs σ'
  | words {sp : Nat} {addrs : List Nat} {σ' : Phys} :
      pushArgs d sz argv σ = .ok (some (sp, addrs), σ') →
      StackCall d sz argv σ (u32 (sp + 2 ^ 32 - (3 + addrs.length + 1) * 4))
        ((ustack sp addrs).flatMap bytesOf) σ'

/-- The call `copyout(d, va, bs)` returns, writes through present user pages only, and
returns -1 if an address of the range has no such page. -/
def ProperCall (d va : Nat) (bs : List UInt8) (σ : Phys) : Prop :=
  ∃ b σ', copyout d va bs σ = .ok (b, σ') ∧ σ'.freelist = σ.freelist ∧
    (∀ x, σ'.mem x ≠ σ.mem x → ∃ i < bs.length, ∃ w, pteAt σ.mem d (pageOf (va + i)) = some w ∧
      user w = true ∧ x = pteFrame w * 4096 + (va + i) % 4096) ∧
    ((∃ i < bs.length, ¬ UserPage σ.mem d (pageOf (va + i))) → b = false)

/-- No string that is reached is longer than the stack pointer by more than 32 MB; `stack`
is the lower end of the stack page, and a string is reached if those before it fit there. -/
def Spares (stack : Nat) : Nat → List CString → Prop
  | _, [] => True
  | sp, arg :: args => arg.bytes.length + 1 ≤ sp + 2 ^ 25 ∧
      (stack + (arg.bytes.length + 1) ≤ sp →
        Spares stack ((sp - (arg.bytes.length + 1)) / 4 * 4) args)

section

variable {L : Layout} {D X : Set Nat} {σ σ' : Phys} {d top sp va : Nat} {bs : List UInt8}

/-! ## One call -/

theorem copyout_below_top (h : Sound L D X σ) (hd : d ∈ D) (himg : NewImage L σ.mem d top)
    (hpos : 0 < bs.length) (htop : va + bs.length ≤ (top + 2) * 4096) :
    Spec noPanic (copyout d va bs) σ (fun b σ' => Sound L D X σ' ∧ SameTables D σ.mem σ'.mem ∧
      σ'.freelist = σ.freelist ∧ WritesUser d va bs.length σ σ' ∧
      (b = true ↔ ∀ a, va ≤ a → a < va + bs.length → UserPage σ.mem d (a / 4096)) ∧
      (b = true → ∀ a < sharedbase, load σ'.mem d a = overlay va bs (load σ.mem d) a)) := by
  have hle : va + bs.length ≤ sharedbase := htop.trans himg.size.le
  have hker : KernelOnly σ.mem d := by
    intro x h1 h2 w hw
    rw [himg.kernel x h1 h2] at hw
    exact kmapPte_notUser (h.ram_dir hd).data_lt hw
  refine ((copyout_spec h hd (Or.inl hle) hker ?_).and
    (copyoutLoop_view hd _ va bs σ h (Nat.lt_succ_self _) hle)).mono fun b σ' hr => ?_
  · rintro ⟨x, h1, h2, hnone⟩
    exact himg.image.inside x (by omega) hnone
  · obtain ⟨⟨h', hs, hfree, _, hall⟩, hwrites, hdone⟩ := hr
    refine ⟨h', hs, hfree, hwrites, ⟨fun hb => (hdone hb).1, fun huser => ?_⟩,
      fun hb => (hdone hb).2⟩
    refine hall fun x h1 h2 => ?_
    have hpage := huser (max va (x * 4096)) (by omega) (by omega)
    rwa [show max va (x * 4096) / 4096 = x by omega] at hpage

/-- A range that ends in the guard or in the stack page: the call succeeds if and only if
the stack page holds all of it. -/
theorem copyout_stack (h : Sound L D X σ) (hd : d ∈ D) (himg : NewImage L σ.mem d top)
    (hpos : 0 < bs.length) (hend : top * 4096 < va + bs.length)
    (htop : va + bs.length ≤ (top + 2) * 4096) :
    Spec noPanic (copyout d va bs) σ (fun b σ' => Sound L D X σ' ∧ SameTables D σ.mem σ'.mem ∧
      (b = true ↔ (top + 1) * 4096 ≤ va) ∧
      (b = true → ∀ a < sharedbase, load σ'.mem d a = overlay va bs (load σ.mem d) a)) := by
  refine (copyout_below_top h hd himg hpos htop).mono fun b σ' hr => ?_
  obtain ⟨h', hs, _, _, huser, hview⟩ := hr
  refine ⟨h', hs, huser.trans ⟨fun hall => ?_, fun hlow a h1 h2 => ?_⟩, hview⟩
  · by_contra hshort
    -- the first address of the range in the guard page
    have hguard := hall (max va (top * 4096)) (by omega) (by omega)
    rw [show max va (top * 4096) / 4096 = top by omega] at hguard
    obtain ⟨w, hw, hu⟩ := hguard
    obtain ⟨w', hw', hu'⟩ := himg.stack.guard
    rw [hw] at hw'
    cases hw'
    rw [hu] at hu'
    cases hu'
  · rw [show a / 4096 = top + 1 by omega]
    exact himg.stack.page

theorem proper_below (h : Sound L D X σ) (hd : d ∈ D) (himg : NewImage L σ.mem d top)
    (hpos : 0 < bs.length) (htop : va + bs.length ≤ (top + 2) * 4096) : ProperCall d va bs σ := by
  obtain ⟨b, σ', hrun, _, _, hfree, hwrites, huser, _⟩ :=
    (copyout_below_top h hd himg hpos htop).total
  have hsize : (top + 2) * 4096 < 1073741824 := himg.size
  have hpage : ∀ a < va + bs.length, pageOf a = a / 4096 :=
    fun a ha => pageOf_eq (by unfold sharedbase; omega)
  refine ⟨b, σ', hrun, hfree, fun x hx => ?_, fun hno => ?_⟩
  · obtain ⟨a, w, h1, h2, hw, hu, hxa⟩ := hwrites x hx
    refine ⟨a - va, by omega, w, ?_, hu, ?_⟩
    · rw [Nat.add_sub_cancel' h1, hpage a h2]
      exact hw
    · rw [Nat.add_sub_cancel' h1]
      exact hxa
  · obtain ⟨i, hi, hnot⟩ := hno
    refine Bool.eq_false_iff.mpr fun hb => hnot ?_
    rw [hpage (va + i) (by omega)]
    exact huser.mp hb (va + i) (by omega) (by omega)

/-- A call for a range that starts in the kernel half: without a page-table page it reads
through a null pointer, otherwise it returns -1 and writes nothing. -/
theorem copyout_high (h : Sound L D X σ) (hd : d ∈ D) (himg : NewImage L σ.mem d top)
    (hpos : 0 < bs.length) (hlow : kernbase ≤ va) (hva : va < 2 ^ 32) :
    copyout d va bs σ
      = if tabOf σ.mem d (va / 4096 / 1024) = none then .error .nullDeref
        else .ok (false, σ) := by
  have hd0 : d ≠ 0 := Nat.pos_iff_ne_zero.mp (h.ram_dir hd).pos
  have hpage : va / 4096 < 1048576 := by omega
  unfold kernbase at hlow
  have hround : pgrounddown va = va / 4096 * 4096 := rfl
  unfold copyout copyoutLoop
  rw [if_pos hpos]
  dsimp only
  rw [hround]
  unfold uva2ka
  rw [bind_assoc, bind_ok (walkpgdir_run hd0 _ σ), pdx_page hpage, ptx_page]
  cases ht : tabOf σ.mem d (va / 4096 / 1024) with
  | none => rfl
  | some t =>
    have hpte := pteAt_of_tabOf ht
    rw [himg.kernel _ (by omega) hpage] at hpte
    rw [if_neg (Option.some_ne_none t), Option.map_some]
    dsimp only
    rw [bind_assoc, bind_ok (readPte_run (t, va / 4096 % 1024) σ)]
    cases hp : present (word σ.mem t (va / 4096 % 1024)) with
    | false => rfl
    | true =>
      rw [if_pos hp] at hpte
      have hu := kmapPte_notUser (h.ram_dir hd).data_lt hpte
      dsimp only
      rw [if_pos rfl, hu]
      rfl

/-! ## Addresses of strings -/

variable {arg : CString} {args argv : List CString}

theorem stringAddr_fits (hsp : sp ≤ sharedbase) (hlen : arg.bytes.length + 1 ≤ sp) :
    stringAddr sp arg = (sp - (arg.bytes.length + 1)) / 4 * 4 := by
  unfold sharedbase at hsp
  unfold stringAddr u32
  omega

/-- The string does not fit, and the address wraps. -/
theorem stringAddr_wraps (hsp : sp ≤ sharedbase) (hbytes : arg.bytes.length < sharedbase)
    (hlen : sp < arg.bytes.length + 1) :
    kernbase ≤ stringAddr sp arg ∧ stringAddr sp arg < 2 ^ 32 ∧
      (stringAddr sp arg / 4096 / 1024 ∈ hole ↔ sp + 2 ^ 25 < arg.bytes.length + 1) ∧
      (1040384 ≤ stringAddr sp arg / 4096 ↔ arg.bytes.length + 1 ≤ sp + 2 ^ 25) := by
  unfold sharedbase at hsp hbytes
  have haddr : stringAddr sp arg = (sp + 2 ^ 32 - (arg.bytes.length + 1)) / 4 * 4 := by
    unfold stringAddr u32
    omega
  rw [haddr]
  unfold kernbase hole
  rw [Set.mem_Ico]
  omega

/-- A string that is far too long is read through the hole. -/
theorem copyout_hole (h : Sound L D X σ) (hd : d ∈ D) (himg : NewImage L σ.mem d top)
    (hsp : sp ≤ (top + 2) * 4096) (hbytes : arg.bytes.length < sharedbase)
    (hlong : sp + 2 ^ 25 < arg.bytes.length + 1) :
    copyout d (stringAddr sp arg) (arg.bytes ++ [0]) σ = .error .nullDeref := by
  have hlen : (arg.bytes ++ [0]).length = arg.bytes.length + 1 := by simp
  obtain ⟨hlow, hlt, hhole, _⟩ :=
    stringAddr_wraps (hsp.trans himg.size.le) hbytes (by omega)
  rw [copyout_high h hd himg (by omega) hlow hlt, if_pos (himg.hole _ (hhole.mpr hlong))]

/-- The call for a string, as far as the stack pointer decides it. -/
theorem stringCall_proper_iff (h : Sound L D X σ) (hd : d ∈ D) (himg : NewImage L σ.mem d top)
    (hsp : sp ≤ (top + 2) * 4096) (hbytes : arg.bytes.length < sharedbase) :
    ProperCall d (stringAddr sp arg) (arg.bytes ++ [0]) σ ↔ arg.bytes.length + 1 ≤ sp + 2 ^ 25 := by
  have hlen : (arg.bytes ++ [0]).length = arg.bytes.length + 1 := by simp
  have hsp' : sp ≤ sharedbase := hsp.trans himg.size.le
  by_cases hfits : arg.bytes.length + 1 ≤ sp
  · refine iff_of_true (proper_below h hd himg (by omega) ?_) (by omega)
    rw [stringAddr_fits hsp' hfits]
    omega
  · obtain ⟨hlow, hlt, _, hdev⟩ := stringAddr_wraps hsp' hbytes (by omega)
    constructor
    · rintro ⟨b, σ', hok, _⟩
      by_contra hlong
      rw [copyout_hole h hd himg hsp hbytes (by omega)] at hok
      cases hok
    · intro hshort
      have hrun := copyout_high h hd himg (show 0 < (arg.bytes ++ [0]).length by omega) hlow hlt
      have htab : tabOf σ.mem d (stringAddr sp arg / 4096 / 1024) ≠ none := by
        intro hnone
        have hpte := pteAt_none_of_tabOf hnone
        rw [himg.kernel _ (by unfold kernbase at hlow; omega) (by omega)] at hpte
        exact kmapPte_dev L (hdev.mpr hshort) (by omega) hpte
      rw [if_neg htab] at hrun
      exact ⟨false, σ, hrun, rfl, fun x hx => absurd rfl hx, fun _ => rfl⟩

theorem stringAddr_room (himg : NewImage L σ.mem d top) (hsp : sp ≤ (top + 2) * 4096)
    (hroom : (top + 1) * 4096 + (arg.bytes.length + 1) ≤ sp) :
    (top + 1) * 4096 ≤ stringAddr sp arg ∧ stringAddr sp arg + (arg.bytes.length + 1) ≤ sp ∧
      stringAddr sp arg % 4 = 0 := by
  rw [stringAddr_fits (hsp.trans himg.size.le) (by omega)]
  omega

/-- The call for a string: it succeeds if and only if the stack page has room. -/
theorem copyout_string (h : Sound L D X σ) (hd : d ∈ D) (himg : NewImage L σ.mem d top)
    (hlow : (top + 1) * 4096 ≤ sp) (hsp : sp ≤ (top + 2) * 4096)
    (hbytes : arg.bytes.length < sharedbase) :
    Spec anyPanic (copyout d (stringAddr sp arg) (arg.bytes ++ [0])) σ (fun b σ' => b = true →
      (top + 1) * 4096 + (arg.bytes.length + 1) ≤ sp ∧ Sound L D X σ' ∧
      SameTables D σ.mem σ'.mem ∧ ∀ a < sharedbase,
        load σ'.mem d a = overlay (stringAddr sp arg) (arg.bytes ++ [0]) (load σ.mem d) a) := by
  have hlen : (arg.bytes ++ [0]).length = arg.bytes.length + 1 := by simp
  have hsp' : sp ≤ sharedbase := hsp.trans himg.size.le
  by_cases hfits : arg.bytes.length + 1 ≤ sp
  · have haddr := stringAddr_fits hsp' hfits
    have hend : top * 4096 < stringAddr sp arg + (arg.bytes ++ [0]).length := by omega
    refine ((copyout_stack h hd himg (by omega) hend (by omega)).weaken fun _ _ => trivial).mono
      fun b σ' hr hb => ?_
    obtain ⟨h', hs, hroom, hview⟩ := hr
    have hlow' := hroom.mp hb
    rw [haddr] at hlow'
    exact ⟨Nat.add_le_of_le_sub hfits (hlow'.trans (Nat.div_mul_le_self _ _)), h', hs, hview hb⟩
  · obtain ⟨hge, hlt, _⟩ := stringAddr_wraps hsp' hbytes (by omega)
    have hrun := copyout_high h hd himg (show 0 < (arg.bytes ++ [0]).length by omega) hge hlt
    split at hrun
    · exact Spec.of_error hrun trivial
    · exact Spec.of_ok hrun fun hb => nomatch hb

/-! ## The loop over the strings -/

theorem isString_of_load {m : Mem} {a : Nat}
    (h : ∀ i < arg.bytes.length + 1, load m d (a + i) = (arg.bytes ++ [0])[i]?) :
    IsString m d a arg.bytes := by
  refine isString_iff.mpr ⟨?_, fun j hj => ⟨?_, fun h0 => ?_⟩⟩
  · rw [h arg.bytes.length (Nat.lt_succ_self _), List.getElem?_concat_length]
  · rw [h j (by omega), List.getElem?_append_left hj, List.getElem?_eq_getElem hj]
  · exact arg.no_nul (h0 ▸ List.getElem_mem hj)

/-- The strings of `argv` one below the other at word-aligned addresses `addrs`, from `sp`
down to `sp'`. -/
inductive Pushed (m : Mem) (d : Nat) : Nat → List CString → List Nat → Nat → Prop
  | nil {sp : Nat} : Pushed m d sp [] [] sp
  | cons {sp a sp' : Nat} {arg : CString} {args : List CString} {addrs : List Nat} :
      IsString m d a arg.bytes → a % 4 = 0 → a + (arg.bytes.length + 1) ≤ sp →
      Pushed m d a args addrs sp' → Pushed m d sp (arg :: args) (a :: addrs) sp'

theorem pushArgs_cons (d sp : Nat) (arg : CString) (args : List CString) :
    pushArgs d sp (arg :: args) = do
      if ← copyout d (stringAddr sp arg) (arg.bytes ++ [0]) then
        match ← pushArgs d (stringAddr sp arg) args with
        | none => return none
        | some (sp', addrs) => return some (sp', stringAddr sp arg :: addrs)
      else
        return none :=
  rfl

/-- When the loop succeeds the strings are in the stack page; above the stack pointer it
started with nothing changed. -/
theorem pushArgs_pushed (hd : d ∈ D) : ∀ (argv : List CString) (sp : Nat) (σ : Phys),
    Sound L D X σ → NewImage L σ.mem d top → (top + 1) * 4096 ≤ sp → sp ≤ (top + 2) * 4096 →
    (∀ arg ∈ argv, arg.bytes.length < sharedbase) →
    Spec anyPanic (pushArgs d sp argv) σ (fun r σ' => ∀ sp' addrs, r = some (sp', addrs) →
      Sound L D X σ' ∧ SameTables D σ.mem σ'.mem ∧ (top + 1) * 4096 ≤ sp' ∧ sp' ≤ sp ∧
      addrs.length = argv.length ∧ Pushed σ'.mem d sp argv addrs sp' ∧
      ∀ a, sp ≤ a → a < sharedbase → load σ'.mem d a = load σ.mem d a) := by
  intro argv
  induction argv with
  | nil =>
    intro sp σ h _ hlow _ _
    refine Spec.pure fun sp' addrs hr => ?_
    cases hr
    exact ⟨h, SameTables.refl _ _, hlow, le_rfl, rfl, .nil, fun _ _ _ => rfl⟩
  | cons arg args ih =>
    intro sp σ h himg hlow hsp hargs
    rw [pushArgs_cons]
    refine Spec.seq (copyout_string h hd himg hlow hsp (hargs arg List.mem_cons_self))
      (fun b σ₁ hr => ?_)
    cases b with
    | false => exact Spec.pure fun _ _ hr => nomatch hr
    | true =>
      obtain ⟨hroom, h₁, hs₁, hview⟩ := hr rfl
      obtain ⟨hlow₁, hle₁, halign⟩ := stringAddr_room himg hsp hroom
      have hsize : (top + 2) * 4096 < sharedbase := himg.size
      rw [if_pos rfl]
      refine Spec.seq (ih (stringAddr sp arg) σ₁ h₁ (himg.of_sameTables hd hs₁) hlow₁
        (by omega) fun arg' harg' => hargs arg' (List.mem_cons_of_mem _ harg'))
        (fun r σ₂ hr₂ => ?_)
      cases r with
      | none => exact Spec.pure fun _ _ hr => nomatch hr
      | some q =>
        obtain ⟨sp₂, addrs₂⟩ := q
        refine Spec.pure fun sp' addrs hr => ?_
        cases hr
        obtain ⟨h₂, hs₂, hlow₂, hle₂, hlen, hpushed, hkept⟩ := hr₂ sp₂ addrs₂ rfl
        refine ⟨h₂, hs₁.trans hs₂, hlow₂, by omega, by simp [hlen],
          .cons (isString_of_load fun i hi => ?_) halign hle₁ hpushed, fun a ha hlt => ?_⟩
        · -- the later strings are below this one
          rw [hkept (stringAddr sp arg + i) (by omega) (by omega),
            hview (stringAddr sp arg + i) (by omega)]
          unfold overlay
          rw [if_pos ⟨by omega, by simp; omega⟩, Nat.add_sub_cancel_left]
        · rw [hkept a (by omega) hlt, hview a hlt]
          unfold overlay
          rw [if_neg fun hc => by simp at hc; omega]

/-- The calls of the loop are proper as long as no string is far too long. -/
theorem stringCalls_iff (hd : d ∈ D) : ∀ (argv : List CString) (sp : Nat) (σ : Phys),
    Sound L D X σ → NewImage L σ.mem d top → (top + 1) * 4096 ≤ sp → sp ≤ (top + 2) * 4096 →
    (∀ arg ∈ argv, arg.bytes.length < sharedbase) →
    ((∀ va bs σ', StringCall d sp argv σ va bs σ' → ProperCall d va bs σ') ↔
      Spares ((top + 1) * 4096) sp argv) := by
  intro argv
  induction argv with
  | nil => exact fun sp σ _ _ _ _ _ => iff_of_true (fun _ _ _ hc => nomatch hc) trivial
  | cons arg args ih =>
    intro sp σ h himg hlow hsp hargs
    have hbytes := hargs arg List.mem_cons_self
    have hargs' : ∀ arg' ∈ args, arg'.bytes.length < sharedbase :=
      fun arg' harg' => hargs arg' (List.mem_cons_of_mem _ harg')
    have hfirst := stringCall_proper_iff h hd himg hsp hbytes
    have hlen : (arg.bytes ++ [0]).length = arg.bytes.length + 1 := by simp
    constructor
    · intro hall
      refine ⟨hfirst.mp (hall _ _ _ .here), fun hroom => ?_⟩
      have haddr := stringAddr_fits (hsp.trans himg.size.le)
        (show arg.bytes.length + 1 ≤ sp by omega)
      obtain ⟨hlow₁, hle₁, _⟩ := stringAddr_room himg hsp hroom
      obtain ⟨b, σ₁, hrun, h₁, hs₁, htrue, _⟩ := (copyout_stack h hd himg
        (show 0 < (arg.bytes ++ [0]).length by omega)
        (show top * 4096 < stringAddr sp arg + _ by omega) (by omega)).total
      rw [htrue.mpr hlow₁] at hrun
      rw [← haddr]
      exact (ih _ σ₁ h₁ (himg.of_sameTables hd hs₁) hlow₁ (by omega) hargs').mp
        fun va bs σ' hc => hall va bs σ' (.later hrun hc)
    · rintro ⟨hshort, hrest⟩ va bs σ' hc
      cases hc with
      | here => exact hfirst.mpr hshort
      | later hrun hc =>
        obtain ⟨hroom, h₁, hs₁, _⟩ :=
          (copyout_string h hd himg hlow hsp hbytes).post hrun rfl
        have haddr := stringAddr_fits (hsp.trans himg.size.le)
          (show arg.bytes.length + 1 ≤ sp by omega)
        obtain ⟨hlow₁, hle₁, _⟩ := stringAddr_room himg hsp hroom
        have hrest := hrest hroom
        rw [← haddr] at hrest
        exact (ih _ _ h₁ (himg.of_sameTables hd hs₁) hlow₁ (by omega) hargs').mpr hrest
          va bs σ' hc

/-! ## All calls -/

/-- The words go below the strings, at an address that does not wrap. -/
theorem wordsAddr {argc : Nat} (himg : NewImage L σ.mem d top) (hlow : (top + 1) * 4096 ≤ sp)
    (hsp : sp ≤ (top + 2) * 4096) (hargc : argc < 32) :
    u32 (sp + 2 ^ 32 - (3 + argc + 1) * 4) = sp - (3 + argc + 1) * 4 := by
  have hsize : (top + 2) * 4096 < 1073741824 := himg.size
  unfold u32
  omega

/-- For any new image and any arguments `sys_exec` accepts (`n` is the size of the caller's
memory), the calls of `copyout` stay in the user's pages if and only if no string that is
reached is longer than the stack pointer by more than 32 MB. -/
theorem stackCalls_proper_iff {n : Nat} (h : Sound L D X σ) (hd : d ∈ D)
    (himg : NewImage L σ.mem d top) (hargc : argv.length < 32) (hn : n ≤ sharedbase)
    (hargs : ∀ arg ∈ argv, arg.bytes.length < n) :
    (∀ va bs σ', StackCall d ((top + 2) * 4096) argv σ va bs σ' → ProperCall d va bs σ') ↔
      Spares ((top + 1) * 4096) ((top + 2) * 4096) argv := by
  have hargs' : ∀ arg ∈ argv, arg.bytes.length < sharedbase :=
    fun arg harg => (hargs arg harg).trans_le hn
  have hstrings := stringCalls_iff hd argv ((top + 2) * 4096) σ h himg (by omega) le_rfl hargs'
  constructor
  · intro hall
    exact hstrings.mp fun va bs σ' hc => hall va bs σ' (.string hc)
  · intro hspares va bs σ' hc
    cases hc with
    | string hc => exact hstrings.mpr hspares va bs σ' hc
    | words hrun =>
      rename_i sp addrs
      obtain ⟨h', hs, hlow, hsp, hlen, _⟩ :=
        (pushArgs_pushed hd argv _ σ h himg (by omega) le_rfl hargs').post hrun sp addrs rfl
      have himg' := himg.of_sameTables hd hs
      rw [hlen, wordsAddr himg' hlow hsp hargc]
      refine proper_below h' hd himg' ?_ ?_
      · rw [ustack_length]
        omega
      · rw [ustack_length, hlen]
        omega

end

/-- A string of `n` letters. -/
def letters (n : Nat) : CString :=
  ⟨List.replicate n 65, fun h => absurd (List.eq_of_mem_replicate h) (by decide)⟩

@[simp] theorem letters_length (n : Nat) : (letters n).bytes.length = n := List.length_replicate

/-- Right after boot: a short argument for the empty executable. -/
theorem stackCalls_proper_iff_short : ∃ s, Booted smallKernel s ∧ ∃ d σ,
    NewImage smallKernel σ.mem d 0 ∧
    ∀ va bs σ', StackCall d 8192 [letters 5] σ va bs σ' → ProperCall d va bs σ' := by
  obtain ⟨s, hs⟩ := exists_booted (L := smallKernel) (by decide)
  have hfree := hs.fresh.free
  obtain ⟨d, _, σ, _, _, h, himg⟩ := exists_newImage hs.fresh.accounted.sound (by omega)
  refine ⟨s, hs, d, σ, himg, (stackCalls_proper_iff (n := 4096) h (Set.mem_insert d _) himg
    (by decide) (by decide) fun arg harg => ?_).mpr ?_⟩
  · rw [List.mem_singleton.mp harg, letters_length]
    decide
  · refine ⟨?_, fun _ => trivial⟩
    rw [letters_length]
    decide

/-- The first process, grown to 64 MB, calls `exec` with one argument of 40 MB. The call of
`copyout` for it reads through a null pointer, and with it `sys_exec`. -/
theorem exec_reads_through_null : ∃ s s' : Sys, Booted smallKernel s ∧
    Returns smallKernel s s.initproc (.sbrk (some 67108864)) 4096 s' ∧
    (letters 40000000).bytes.length < (s'.proc s.initproc).sz ∧
    (∃ d σ₁ σ₂, execLoad smallKernel (some emptyElf) s'.phys = .ok (some (d, 0, 0), σ₁) ∧
      allocStack smallKernel d 0 σ₁ = .ok (some 8192, σ₂) ∧
      ∃ va bs, StackCall d 8192 [letters 40000000] σ₂ va bs σ₂ ∧
        copyout d va bs σ₂ = .error .nullDeref) ∧
    sysExec smallKernel s.initproc (some nameA) (some emptyElf) [letters 40000000] s'
      = .error .nullDeref := by
  obtain ⟨s, hs⟩ := exists_booted (L := smallKernel) (by decide)
  have hf := hs.fresh
  have hfree := hf.free
  have hgrow : (67108864 : Int).toNat = 67108864 := rfl
  obtain ⟨σ, hret, _, hlen⟩ := sbrk_grows (n := 67108864) hf.accounted hf.ready (by decide)
    (by rw [hf.size]; decide) (le_trans (by rw [hf.size]; decide) hfree)
  have hacc := hret.accounted hf.accounted (sharingFits_of_ne fun _ _ _ => Act.noConfusion)
  rw [hf.size, hgrow] at hret hlen hacc
  set s' := s.resized s.initproc σ (4096 + 67108864) with hs'
  have hphys : s'.phys = σ := rfl
  have hproc : s'.proc s.initproc = { s.proc s.initproc with sz := 4096 + 67108864 } :=
    resized_proc ..
  have hsz : (s'.proc s.initproc).sz = 67112960 := by rw [hproc]
  have hshared : ∀ e ∈ (s'.proc s.initproc).shared.entries, e.size = 0 := by
    rw [hproc]
    show ∀ e ∈ (s.proc s.initproc).shared.entries, e.size = 0
    rw [hf.table]
    decide
  obtain ⟨d, σ₁, σ₂, hload, hstack, h, himg⟩ := exists_newImage hacc.sound
    (by rw [hphys]; omega)
  have hnull : copyout d (stringAddr 8192 (letters 40000000)) ((letters 40000000).bytes ++ [0]) σ₂
      = .error .nullDeref :=
    copyout_hole h (Set.mem_insert d _) himg (by decide) (by rw [letters_length]; decide)
      (by rw [letters_length]; decide)
  have hpush : pushStack d 8192 [letters 40000000] σ₂ = .error .nullDeref := by
    unfold pushStack
    refine bind_error ?_
    rw [pushArgs_cons]
    exact bind_error hnull
  refine ⟨s, s', hs, hret, by rw [hsz, letters_length]; decide,
    ⟨d, σ₁, σ₂, hload, hstack, _, _, .string .here, hnull⟩, ?_⟩
  have hargs : ¬ ([letters 40000000].length ≥ 32 ∨
      ∃ arg ∈ [letters 40000000], arg.bytes.length ≥ (s'.proc s.initproc).sz) := by
    rintro (hc | ⟨arg, harg, hc⟩)
    · exact absurd hc (by decide)
    · rw [List.mem_singleton.mp harg, letters_length, hsz] at hc
      exact absurd hc (by decide)
  unfold sysExec
  rw [bind_ok (get_run s')]
  dsimp only
  rw [if_neg hargs, exec_eq_image nameA _ _ _ hshared]
  have himage : execImage smallKernel (some emptyElf) s'.phys = .ok (some (d, 8192, 0), σ₂) := by
    unfold execImage
    rw [bind_ok hload]
    dsimp only
    rw [bind_ok hstack]
    rfl
  rw [bind_ok (onPhys_ok himage)]
  exact bind_error (onPhys_error hpush)

end Xv6Sharing.Process
