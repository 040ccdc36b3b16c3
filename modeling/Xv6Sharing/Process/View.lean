/-
Xv6Sharing.Process.View — what is read through a page directory after the
operations of kernel/vm.c.

`load m d` is the memory directory `d` shows. Below `SHAREDBASE` every page has a
frame of its own, so a store into one page shows at the addresses of that page
and nowhere else (`load_store_user`). From this and the facts about contents of
`Vm.Contents` each operation gets one statement: `allocuvm` adds zero pages,
`clearpteu` shows nothing, `loaduvm` lays a part of a file over the memory and
`copyout` a list of bytes, and `freevm` of another directory shows nothing.
-/
import Xv6Sharing.Process.ArgStrings
import Xv6Sharing.Process.Growth
import Xv6Sharing.Process.ExecTheorems

namespace Xv6Sharing.Process

open Lib Vm

/-- Memory `g` with the bytes `bs` laid over it from address `va` on. -/
def overlay (va : Nat) (bs : List UInt8) (g : Nat → Option UInt8) (a : Nat) : Option UInt8 :=
  if va ≤ a ∧ a < va + bs.length then bs[a - va]? else g a

theorem overlay_nil (va : Nat) (g : Nat → Option UInt8) (a : Nat) : overlay va [] g a = g a := by
  unfold overlay
  rw [if_neg (by simp)]

theorem overlay_congr {va a : Nat} {bs : List UInt8} {g g' : Nat → Option UInt8}
    (h : g a = g' a) : overlay va bs g a = overlay va bs g' a := by
  unfold overlay
  rw [h]

theorem overlay_drop_take {va k : Nat} {bs : List UInt8} (hk : k ≤ bs.length)
    (g : Nat → Option UInt8) (a : Nat) :
    overlay (va + k) (bs.drop k) (overlay va (bs.take k) g) a = overlay va bs g a := by
  unfold overlay
  rw [List.length_drop, List.length_take, Nat.min_eq_left hk]
  by_cases hlow : va ≤ a ∧ a < va + k
  · rw [if_neg (by omega), if_pos hlow, if_pos ⟨hlow.1, by omega⟩,
      List.getElem?_take_of_lt (by omega)]
  · by_cases hhigh : va + k ≤ a ∧ a < va + bs.length
    · rw [if_pos ⟨hhigh.1, by omega⟩, if_pos ⟨by omega, hhigh.2⟩, List.getElem?_drop,
        show k + (a - (va + k)) = a - va by omega]
    · rw [if_neg (fun hc => hhigh ⟨hc.1, by omega⟩), if_neg hlow,
        if_neg (fun hc => by omega)]

/-- Page `v` of directory `d` is present and the user's. -/
def UserPage (m : Mem) (d v : Nat) : Prop := ∃ w, pteAt m d v = some w ∧ user w = true

section

variable {L : Layout} {D X : Set Nat} {σ σ' : Phys} {d d' v w a : Nat}

theorem pageOf_eq (h : a < sharedbase) : pageOf a = a / 4096 := by
  unfold sharedbase at h
  unfold pageOf
  omega

theorem load_eq (ha : a < sharedbase) (m : Mem) (d : Nat) :
    load m d a = (pteAt m d (a / 4096)).map fun w => m (pteFrame w * 4096 + a % 4096) := by
  unfold load
  rw [pageOf_eq ha]
  cases pteAt m d (a / 4096) with
  | none => rfl
  | some w => rfl

/-- The frame is the one it was, and so are its bytes. -/
theorem load_of_same (ha : a < sharedbase)
    (hpte : (pteAt σ'.mem d (a / 4096)).map pteFrame = (pteAt σ.mem d (a / 4096)).map pteFrame)
    (hpage : ∀ w, pteAt σ.mem d (a / 4096) = some w → SamePage σ.mem σ'.mem (pteFrame w)) :
    load σ'.mem d a = load σ.mem d a := by
  rw [load_eq ha, load_eq ha]
  cases hw : pteAt σ.mem d (a / 4096) with
  | none =>
    rw [hw] at hpte
    rw [Option.map_eq_none_iff.mp hpte]
    rfl
  | some w =>
    rw [hw] at hpte
    obtain ⟨w', hw', hframe⟩ := Option.map_eq_some_iff.mp hpte
    rw [hw', Option.map_some, Option.map_some, hframe]
    exact congrArg some (hpage w hw _ (by omega))

/-- A store into a user page shows at the addresses of that page. -/
theorem load_store_user (off : Nat) (bs : List UInt8) (h : Sound L D X σ) (hd : d ∈ D)
    (hv : v < 262144) (hw : pteAt σ.mem d v = some w) (hlen : off + bs.length ≤ 4096)
    (ha : a < sharedbase) :
    load (storeBytes σ.mem (pteFrame w * 4096 + off) bs) d a
      = overlay (v * 4096 + off) bs (load σ.mem d) a := by
  have htabs := (store_user off bs h hd hv hw hlen).2
  have hpage : a / 4096 < 262144 := by
    unfold sharedbase at ha
    omega
  unfold overlay
  rw [load_eq ha, (htabs d hd).2 _ (by omega)]
  by_cases hav : a / 4096 = v
  · subst hav
    rw [hw]
    show some (if pteFrame w * 4096 + off ≤ pteFrame w * 4096 + a % 4096 ∧
      pteFrame w * 4096 + a % 4096 < pteFrame w * 4096 + off + bs.length
        then bs.getD (pteFrame w * 4096 + a % 4096 - (pteFrame w * 4096 + off)) 0
        else σ.mem (pteFrame w * 4096 + a % 4096)) = _
    by_cases hin : off ≤ a % 4096 ∧ a % 4096 < off + bs.length
    · rw [if_pos ⟨by omega, by omega⟩, if_pos ⟨by omega, by omega⟩, List.getD_eq_getElem?_getD,
        show pteFrame w * 4096 + a % 4096 - (pteFrame w * 4096 + off) = a % 4096 - off by omega,
        show a - (a / 4096 * 4096 + off) = a % 4096 - off by omega,
        List.getElem?_eq_getElem (by omega)]
      rfl
    · rw [if_neg (fun hc => hin ⟨by omega, by omega⟩), if_neg (fun hc => hin ⟨by omega, by omega⟩),
        load_eq ha, hw]
      rfl
  · rw [if_neg (by omega), load_eq ha]
    cases hw' : pteAt σ.mem d (a / 4096) with
    | none => rfl
    | some w' =>
      have hne : pteFrame w' ≠ pteFrame w := fun he =>
        hav (h.page_inj hd hv hw hd hpage hw' he).2
      exact congrArg some (samePage_storeBytes hlen hne _ (by omega))

/-! ## `allocuvm` and `clearpteu` -/

/-- `allocuvm` keeps what was there and adds zeros. -/
theorem allocuvm_view {old : Nat} (new : Nat) (h : Sound L D X σ) (hd : d ∈ D)
    (himg : Image σ.mem d old) (hold : old < sharedbase) :
    Spec noPanic (allocuvm L d old new) σ (fun r σ' => r ≠ 0 → r = max old new ∧
      r < sharedbase ∧ (∀ a, a / 4096 * 4096 < old → load σ'.mem d a = load σ.mem d a) ∧
      ∀ a, old ≤ a / 4096 * 4096 → a / 4096 * 4096 < r → load σ'.mem d a = some 0) := by
  by_cases hle : old ≤ new
  · obtain ⟨r, σ', hrun, hcase⟩ := allocuvm_exact new h hd himg hold hle
    refine Spec.of_ok hrun fun hr => ?_
    obtain ⟨rfl, hshape⟩ | ⟨rfl, _⟩ := hcase
    · have hlt : r < 1073741824 := hshape.below
      refine ⟨by omega, hshape.below, fun a ha => ?_, fun a hge ha => ?_⟩
      · have hkept := fun w hw => hshape.survive (a / 4096) w ha (by omega) hw
        refine load_of_same (by unfold sharedbase; omega) ?_ fun w hw => (hkept w hw).2
        obtain ⟨w, hw⟩ := Option.ne_none_iff_exists'.mp (himg.inside (a / 4096) ha)
        rw [hw, (hkept w hw).1]
      · obtain ⟨w, hw⟩ := Option.ne_none_iff_exists'.mp (hshape.image.inside (a / 4096) ha)
        rw [load_eq (by unfold sharedbase; omega), hw]
        exact congrArg some (hshape.zero _ w hge ha hw _ (by omega))
    · exact absurd rfl hr
  · unfold allocuvm
    rw [if_neg (by omega), if_pos (by omega)]
    exact Spec.pure fun _ => ⟨by omega, hold, fun _ _ => rfl, fun a h1 h2 => by omega⟩

/-- `clearpteu` changes a flag, not what the kernel reads. -/
theorem clearpteu_view (h : Sound L D X σ) (hd : d ∈ D) (hv : v < 262144)
    (hw : pteAt σ.mem d v = some w) :
    Spec noPanic (clearpteu d (v * 4096)) σ (fun _ σ' =>
      ∀ a < sharedbase, load σ'.mem d a = load σ.mem d a) := by
  have hd0 : d ≠ 0 := Nat.pos_iff_ne_zero.mp (h.ram_dir hd).pos
  refine ((clearpteu_spec h hd hv hw).and (clearpteu_kept hd0 (by omega)
    (apart_framesBelow h hd hd sharedbase).tabs)).mono fun _ σ' hr a ha => ?_
  obtain ⟨⟨_, hedit, _⟩, hkept⟩ := hr
  have ha' : a < 1073741824 := ha
  refine load_of_same ha ?_ fun w' hw' =>
    hkept _ (mem_framesBelow (by omega) (by unfold sharedbase; omega) hw')
  rw [hedit.pte _ (by omega), Function.update_apply]
  split
  · next heq =>
      rw [heq, hw, Option.map_some, Option.map_some, pteFrame_dropUser]
  · rfl

/-- `freevm` of a directory does not show through another one. -/
theorem freevm_view (h : Sound L D X σ) (hd : d ∈ D) (hd' : d' ∈ D) (hne : d ≠ d') :
    Spec noPanic (freevm L d') σ (fun _ σ' =>
      ∀ a < sharedbase, load σ'.mem d a = load σ.mem d a) := by
  have ha := apart_framesBelow h hd' hd sharedbase
  have hpages : ∀ x < 262144, ∀ w, pteAt σ.mem d' x = some w →
      pteFrame w ∉ framesBelow σ.mem d sharedbase := by
    rintro x hx w hw ⟨v, w', hv, _, hw', hf⟩
    exact hne (h.page_inj hd' hx hw hd hv hw' hf).1
  refine ((freevm_spec h hd').and (freevm_kept h hd' ha.dir ha.tabs hpages)).mono
    fun _ σ' hr a ha => ?_
  obtain ⟨⟨_, htabs, _⟩, hkept⟩ := hr
  have ha' : a < 1073741824 := ha
  refine load_of_same ha ?_ fun w' hw' =>
    hkept _ (mem_framesBelow (by omega) (by unfold sharedbase; omega) hw')
  rw [(htabs d ⟨hd, hne⟩).2 _ (by omega)]

/-! ## `loaduvm` -/

/-- What `readi` returned, byte by byte. The offset did not wrap. -/
theorem readi_getElem {file bs : List UInt8} {off n : Nat} (h : readi file off n = some bs)
    (hlen : bs.length = n) (hoff : off < 2 ^ 32) (hn : n ≤ 4096) :
    off + n < 2 ^ 32 ∧ ∀ j < n, bs[j]? = file[off + j]? := by
  unfold readi at h
  split at h
  · cases h
  · next hno =>
      cases h
      unfold u32 at hno
      refine ⟨by omega, fun j hj => ?_⟩
      rw [List.getElem?_take_of_lt hj, List.getElem?_drop]

/-- The loop of `loaduvm`, by induction on the fuel: from page `n` on, the bytes of the
file lie over the memory. -/
theorem loadLoop_view {p offset sz : Nat} {file : List UInt8} (hd : d ∈ D)
    (htop : p * 4096 + sz ≤ sharedbase) :
    ∀ (fuel n : Nat) (σ : Phys), Sound L D X σ → n ≤ 262144 → 262144 - n < fuel →
      (∀ x, p + n ≤ x → x * 4096 < p * 4096 + sz → pteAt σ.mem d x ≠ none) →
      Spec anyPanic (loadLoop d (p * 4096) file offset sz fuel (n * 4096)) σ (fun b σ' =>
        b = true → ∀ a < sharedbase, load σ'.mem d a
          = if p * 4096 + n * 4096 ≤ a ∧ a < p * 4096 + sz
            then file[u32 (offset + (a - p * 4096))]? else load σ.mem d a) := by
  unfold sharedbase at htop
  intro fuel
  induction fuel with
  | zero =>
    intro n σ _ _ hfuel
    omega
  | succ fuel ih =>
    intro n σ h hn hfuel hpages
    have hd0 : d ≠ 0 := Nat.pos_iff_ne_zero.mp (h.ram_dir hd).pos
    unfold loadLoop
    by_cases hlt : n * 4096 < sz
    · have haddr : u32 (p * 4096 + n * 4096) = (p + n) * 4096 := by
        unfold u32
        omega
      rw [if_pos hlt, haddr]
      refine Spec.seq_ok (walkpgdir_run hd0 _ σ) ?_
      rw [pdx_page (by omega), ptx_page]
      have hin : (p + n) * 4096 < p * 4096 + sz := by
        rw [Nat.add_mul]
        exact Nat.add_lt_add_left hlt _
      obtain ⟨w, hw⟩ := Option.ne_none_iff_exists'.mp (hpages (p + n) le_rfl hin)
      obtain ⟨t, ht, hword⟩ := tabOf_of_pteAt hw
      rw [ht]
      refine Spec.seq_ok (readPte_run _ σ) ?_
      dsimp only
      rw [hword]
      generalize hk : (if sz - n * 4096 < 4096 then sz - n * 4096 else 4096) = k
      have hkmin : k = min (sz - n * 4096) 4096 := by
        rw [← hk]
        split <;> omega
      clear hk haddr
      cases hread : readi file (u32 (offset + n * 4096)) k with
      | none => exact Spec.pure fun hb => by cases hb
      | some bs =>
        refine Spec.seq_ok (modify_run _ _) ?_
        by_cases hfull : bs.length = k
        · rw [if_pos hfull]
          obtain ⟨h₁, hs₁⟩ := store_user 0 bs h hd (by omega) hw (by omega)
          have hshow := fun a => load_store_user (a := a) 0 bs h hd (by omega) hw (by omega)
          rw [Nat.add_zero] at h₁ hs₁
          simp only [Nat.add_zero, Nat.add_mul] at hshow
          have hnext : u32 (n * 4096 + 4096) = (n + 1) * 4096 := by
            unfold u32
            omega
          rw [hnext]
          clear hnext
          refine (ih (n + 1) _ h₁ (by omega) (by omega) fun x hx hx' => ?_).mono
            fun b σ' hr hb a ha => ?_
          · rw [(hs₁ d hd).2 x (by omega)]
            exact hpages x (by omega) hx'
          · -- the later rounds, this round, and the rest
            have hstored := hshow a ha
            rw [hr hb a ha]
            clear ha
            by_cases hlater : p * 4096 + (n + 1) * 4096 ≤ a ∧ a < p * 4096 + sz
            · rw [if_pos hlater, if_pos ⟨by omega, hlater.2⟩]
            · rw [if_neg hlater]
              show load (storeBytes σ.mem (pteFrame w * 4096) bs) d a = _
              rw [hstored]
              unfold overlay
              by_cases hhere : p * 4096 + n * 4096 ≤ a ∧ a < p * 4096 + sz
              · have hbytes := readi_getElem hread hfull (Nat.mod_lt _ (by decide)) (by omega)
                rw [if_pos ⟨hhere.1, by omega⟩, if_pos hhere, hbytes.2 _ (by omega)]
                congr 1
                unfold u32 at hbytes ⊢
                omega
              · rw [if_neg (fun hc => hhere ⟨hc.1, by omega⟩), if_neg hhere]
        · rw [if_neg hfull]
          exact Spec.pure fun hb => by cases hb
    · rw [if_neg hlt]
      refine Spec.pure fun _ a _ => ?_
      rw [if_neg (by omega)]

theorem loaduvm_view {addr offset sz : Nat} {file : List UInt8} (h : Sound L D X σ) (hd : d ∈ D)
    (halign : addr % 4096 = 0) (htop : addr + sz ≤ sharedbase)
    (hpages : ∀ x, addr ≤ x * 4096 → x * 4096 < addr + sz → pteAt σ.mem d x ≠ none) :
    Spec anyPanic (loaduvm d addr file offset sz) σ (fun b σ' =>
      b = true → ∀ a < sharedbase, load σ'.mem d a
        = if addr ≤ a ∧ a < addr + sz then file[u32 (offset + (a - addr))]?
          else load σ.mem d a) := by
  obtain ⟨p, rfl⟩ : ∃ p, addr = p * 4096 := ⟨addr / 4096, by omega⟩
  unfold loaduvm
  rw [if_neg (by omega)]
  show Spec anyPanic (loadLoop d (p * 4096) file offset sz pageFuel (0 * 4096)) σ _
  refine (loadLoop_view hd htop pageFuel 0 σ h (by omega) (by unfold pageFuel; omega)
    (fun x hx hx' => hpages x (Nat.mul_le_mul_right 4096 hx) hx')).mono fun b σ' hr hb a ha => ?_
  simpa using hr hb a ha

/-! ## `copyout` -/

/-- Every byte that differs was written at an address from `va` on, through a user page. -/
def WritesUser (d va n : Nat) (σ σ' : Phys) : Prop :=
  ∀ x, σ'.mem x ≠ σ.mem x → ∃ a w, va ≤ a ∧ a < va + n ∧ pteAt σ.mem d (a / 4096) = some w ∧
    user w = true ∧ x = pteFrame w * 4096 + a % 4096

theorem WritesUser.refl (d va n : Nat) (σ : Phys) : WritesUser d va n σ σ :=
  fun _ hx => absurd rfl hx

/-- The loop of `copyout` below `SHAREDBASE`, by induction on the fuel: it writes through
user pages only, and if it gets to its end all pages were, and the bytes lie over the
memory. -/
theorem copyoutLoop_view (hd : d ∈ D) : ∀ (fuel va : Nat) (bs : List UInt8) (σ : Phys),
    Sound L D X σ → bs.length < fuel → va + bs.length ≤ sharedbase →
    Spec anyPanic (copyoutLoop d fuel va bs) σ (fun b σ' => WritesUser d va bs.length σ σ' ∧
      (b = true → (∀ a, va ≤ a → a < va + bs.length → UserPage σ.mem d (a / 4096)) ∧
        ∀ a < sharedbase, load σ'.mem d a = overlay va bs (load σ.mem d) a)) := by
  intro fuel
  induction fuel with
  | zero =>
    intro va bs σ _ hfuel
    omega
  | succ fuel ih =>
    intro va bs σ h hfuel htop
    unfold copyoutLoop
    by_cases hne : bs.length > 0
    · rw [if_pos hne]
      dsimp only
      have hround : pgrounddown va = va / 4096 * 4096 := rfl
      rw [hround]
      have hpage : va / 4096 < 262144 := by
        unfold sharedbase at htop
        omega
      refine Spec.seq (uva2ka_spec h hd (by omega) fun _ => trivial) (fun r σ₁ hr => ?_)
      obtain ⟨hσ, hcase⟩ := hr
      rw [hσ]
      obtain ⟨rfl, _⟩ | ⟨w, rfl, hw, hu⟩ := hcase
      · exact Spec.pure ⟨WritesUser.refl _ _ _ _, fun hb => Bool.noConfusion hb⟩
      · refine Spec.seq_ok (modify_run _ _) ?_
        rw [show va - va / 4096 * 4096 = va % 4096 by omega]
        generalize hk : min (4096 - va % 4096) bs.length = k
        have hlen : (bs.take k).length = k := by
          rw [List.length_take]
          omega
        have hrest : (bs.drop k).length = bs.length - k := List.length_drop
        have hfit : va % 4096 + (bs.take k).length ≤ 4096 := by omega
        obtain ⟨h₁, hs₁⟩ := store_user (va % 4096) (bs.take k) h hd hpage hw hfit
        have hshow := fun a => load_store_user (a := a) (va % 4096) (bs.take k) h hd hpage hw hfit
        rw [show va / 4096 * 4096 + va % 4096 = va by omega] at hshow
        generalize hm : storeBytes σ.mem (pteFrame w * 4096 + va % 4096) (bs.take k) = m₁
          at h₁ hs₁ hshow ⊢
        have hstored : WritesUser d va bs.length σ ⟨m₁, σ.freelist⟩ := by
          intro x hx
          have hin : pteFrame w * 4096 + va % 4096 ≤ x ∧
              x < pteFrame w * 4096 + va % 4096 + (bs.take k).length := by
            by_contra hout
            refine hx ?_
            show m₁ x = _
            rw [← hm]
            unfold storeBytes
            rw [if_neg hout]
          refine ⟨va + (x - (pteFrame w * 4096 + va % 4096)), w, by omega, by omega, ?_, hu,
            by omega⟩
          rw [show (va + (x - (pteFrame w * 4096 + va % 4096))) / 4096 = va / 4096 by omega]
          exact hw
        -- the next round starts at the next page, unless nothing is left
        have hnext : u32 (va / 4096 * 4096 + 4096) = (va / 4096 + 1) * 4096 := by
          unfold u32
          omega
        rw [hnext]
        clear hnext
        have hstart : (va / 4096 + 1) * 4096 = va + k ∨ bs.drop k = [] := by
          by_cases hfull : k = bs.length
          · exact Or.inr (List.drop_eq_nil_of_le (by omega))
          · exact Or.inl (by omega)
        refine (ih _ (bs.drop k) ⟨m₁, σ.freelist⟩ h₁ (by omega) ?_).mono fun b σ₂ hr => ?_
        · unfold sharedbase at htop ⊢
          omega
        obtain ⟨hwrites, hdone⟩ := hr
        refine ⟨fun x hx => ?_, fun hb => ⟨fun a h1 h2 => ?_, fun a ha => ?_⟩⟩
        · by_cases hx₁ : m₁ x = σ.mem x
          · obtain ⟨a, w', h1, h2, hw', hu', hxa⟩ := hwrites x fun he => hx (he.trans hx₁)
            have hlt : a / 4096 < 1048576 := by
              unfold sharedbase at htop
              omega
            exact ⟨a, w', by omega, by omega, ((hs₁ d hd).2 _ hlt).symm.trans hw', hu', hxa⟩
          · exact hstored x hx₁
        · by_cases hhere : a / 4096 = va / 4096
          · exact ⟨w, by rw [hhere]; exact hw, hu⟩
          · obtain ⟨w', hw', hu'⟩ := (hdone hb).1 a (by omega) (by omega)
            have hlt : a / 4096 < 1048576 := by
              unfold sharedbase at htop
              omega
            exact ⟨w', ((hs₁ d hd).2 _ hlt).symm.trans hw', hu'⟩
        · rw [(hdone hb).2 a ha, ← overlay_drop_take (show k ≤ bs.length by omega),
            overlay_congr (hshow a ha)]
          obtain hva | hnil := hstart
          · rw [hva]
          · rw [hnil, overlay_nil, overlay_nil]
    · rw [if_neg hne]
      have hnil : bs = [] := List.length_eq_zero_iff.mp (by omega)
      subst hnil
      refine Spec.pure ⟨WritesUser.refl _ _ _ _, fun _ => ⟨fun a h1 h2 => ?_, fun a _ => ?_⟩⟩
      · exact absurd h2 (by simp; omega)
      · rw [overlay_nil]

end

end Xv6Sharing.Process
