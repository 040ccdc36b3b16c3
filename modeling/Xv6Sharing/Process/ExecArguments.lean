/-
Xv6Sharing.Process.ExecArguments — what a program finds on its stack
(kernel/exec.c).

`exec` pushes the strings one below the other, each at a word-aligned address, and
below them a block of words: a return address, argc, a pointer to the vector of
the strings' addresses, that vector and a final 0. `PassesArgs` says what has to be
readable afterwards, where it lies and that the objects do not overlap.

How the proof goes. `Pushed` of `ExecStack` is what the loop leaves; the block of
words is one more `copyout`, below the last string, and a word read back from its
four bytes is the word written. The call of `freevm` for the old image does not
show in the new one as long as no frame belongs to both, which is what `Sound`
says.
-/
import Xv6Sharing.Process.ExecStack

namespace Xv6Sharing.Process

open Lib Vm Share

/-! ## Words -/

/-- The words `ws` stand one after the other at `a`. -/
def Words (m : Mem) (d : Nat) : Nat → List Nat → Prop
  | _, [] => True
  | a, w :: ws => loadInt m d a = some w ∧ Words m d (a + 4) ws

section

variable {m m' : Mem} {d : Nat}

theorem loadInt_bytesOf {a w : Nat} (hw : w < 2 ^ 32)
    (h : ∀ k < 4, load m d (a + k) = (bytesOf w)[k]?) : loadInt m d a = some w := by
  have h0 : load m d a = some (UInt8.ofNat w) := h 0 (by decide)
  have h1 : load m d (a + 1) = some (UInt8.ofNat (w / 256)) := h 1 (by decide)
  have h2 : load m d (a + 2) = some (UInt8.ofNat (w / 65536)) := h 2 (by decide)
  have h3 : load m d (a + 3) = some (UInt8.ofNat (w / 16777216)) := h 3 (by decide)
  unfold loadInt
  rw [h0, h1, h2, h3]
  simp only [Option.bind_eq_bind, Option.bind_some, Option.pure_def, UInt8.toNat_ofNat',
    Option.some.injEq]
  omega

/-- What was written as bytes reads back as words. -/
theorem words_of_load : ∀ (ws : List Nat) (a : Nat), (∀ w ∈ ws, w < 2 ^ 32) →
    (∀ k < (ws.flatMap bytesOf).length, load m d (a + k) = (ws.flatMap bytesOf)[k]?) →
    Words m d a ws := by
  intro ws
  induction ws with
  | nil => exact fun _ _ _ => trivial
  | cons w ws ih =>
    intro a hws h
    have hlen : (bytesOf w).length = 4 := rfl
    rw [List.flatMap_cons] at h
    refine ⟨loadInt_bytesOf (hws w List.mem_cons_self) fun k hk => ?_,
      ih (a + 4) (fun w' hw' => hws w' (List.mem_cons_of_mem _ hw')) fun k hk => ?_⟩
    · rw [h k (by rw [List.length_append]; omega), List.getElem?_append_left (by omega)]
    · rw [Nat.add_assoc, h (4 + k) (by rw [List.length_append]; omega),
        List.getElem?_append_right (by omega), hlen, Nat.add_sub_cancel_left]

theorem loadInt_congr {a : Nat} (h : ∀ k < 4, load m' d (a + k) = load m d (a + k)) :
    loadInt m' d a = loadInt m d a := by
  have h0 : load m' d a = load m d a := h 0 (by decide)
  unfold loadInt
  rw [h0, h 1 (by decide), h 2 (by decide), h 3 (by decide)]

theorem Words.congr : ∀ (ws : List Nat) (a : Nat), Words m d a ws →
    (∀ b, a ≤ b → b < a + 4 * ws.length → load m' d b = load m d b) → Words m' d a ws := by
  intro ws
  induction ws with
  | nil => exact fun _ _ _ => trivial
  | cons w ws ih =>
    intro a h hload
    rw [List.length_cons] at hload
    refine ⟨?_, ih (a + 4) h.2 fun b h1 h2 => hload b (by omega) (by omega)⟩
    rw [loadInt_congr fun k hk => hload (a + k) (by omega) (by omega)]
    exact h.1

end

/-! ## The stack of a new program -/

/-- The objects on the stack, as addresses and lengths: the block of words and the strings. -/
def blocks (sp : Nat) (argv : List CString) (addrs : List Nat) : List (Nat × Nat) :=
  (sp, 4 * (argv.length + 4)) ::
    List.zipWith (fun a arg => (a, arg.bytes.length + 1)) addrs argv

/-- `ustack[3+MAXARG+1]` of `exec`. -/
def ustackSize : Nat := 3 + 32 + 1

/-- In directory `d` a program of size `sz` finds its arguments at stack pointer `sp`, the
strings at `addrs`. -/
structure PassesArgs (m : Mem) (d sz sp : Nat) (argv : List CString) (addrs : List Nat) :
    Prop where
  page : UserPage m d (sz / 4096 - 1)
  words : Words m d sp (0xffffffff :: argv.length :: (sp + 12) :: addrs ++ [0])
  strings : List.Forall₂ (fun a arg => a % 4 = 0 ∧ IsString m d a arg.bytes) addrs argv
  aligned : sp % 4 = 0
  inside : ∀ b ∈ blocks sp argv addrs, sz - 4096 ≤ b.1 ∧ b.1 + b.2 ≤ sz
  disjoint : (blocks sp argv addrs).Pairwise fun b b' => b.1 + b.2 ≤ b'.1 ∨ b'.1 + b'.2 ≤ b.1
  bound : 3 + argv.length < ustackSize

section

variable {L : Layout} {D X : Set Nat} {σ σ' : Phys} {m m' : Mem} {d top sp sp' sz : Nat}
  {argv : List CString} {addrs : List Nat}

theorem Pushed.strings (h : Pushed m d sp argv addrs sp') :
    List.Forall₂ (fun a arg => a % 4 = 0 ∧ IsString m d a arg.bytes) addrs argv := by
  induction h with
  | nil => exact .nil
  | cons hstr halign _ _ ih => exact .cons ⟨halign, hstr⟩ ih

/-- The strings lie between the two stack pointers. -/
theorem Pushed.inside (h : Pushed m d sp argv addrs sp') :
    sp' ≤ sp ∧ ∀ b ∈ List.zipWith (fun a arg => (a, arg.bytes.length + 1)) addrs argv,
      sp' ≤ b.1 ∧ b.1 + b.2 ≤ sp := by
  induction h with
  | nil => exact ⟨le_rfl, fun b hb => nomatch hb⟩
  | cons _ _ hle _ ih =>
    obtain ⟨hsp, hall⟩ := ih
    refine ⟨by omega, fun b hb => ?_⟩
    rcases List.mem_cons.mp hb with rfl | hb
    · exact ⟨hsp, hle⟩
    · have := hall b hb
      omega

theorem Pushed.disjoint (h : Pushed m d sp argv addrs sp') :
    (List.zipWith (fun a arg => (a, arg.bytes.length + 1)) addrs argv).Pairwise
      fun b b' => b'.1 + b'.2 ≤ b.1 := by
  induction h with
  | nil => exact .nil
  | cons _ _ _ hrest ih => exact List.pairwise_cons.mpr ⟨fun b hb => (hrest.inside.2 b hb).2, ih⟩

theorem Pushed.addrs_lt (h : Pushed m d sp argv addrs sp') : ∀ a ∈ addrs, a < sp := by
  induction h with
  | nil => exact fun a ha => nomatch ha
  | cons _ _ hle _ ih =>
    intro a ha
    rcases List.mem_cons.mp ha with rfl | ha
    · omega
    · have := ih a ha
      omega

theorem Pushed.aligned (h : Pushed m d sp argv addrs sp') (hsp : sp % 4 = 0) : sp' % 4 = 0 := by
  induction h with
  | nil => exact hsp
  | cons _ halign _ _ ih => exact ih halign

theorem Pushed.congr (h : Pushed m d sp argv addrs sp')
    (hload : ∀ a, sp' ≤ a → a < sp → load m' d a = load m d a) :
    Pushed m' d sp argv addrs sp' := by
  induction h with
  | nil => exact .nil
  | cons hstr halign hle hrest ih =>
    have hsp := hrest.inside.1
    refine .cons (hstr.congr fun j hj => hload _ (by omega) (by omega)) halign hle
      (ih fun a h1 h2 => hload a h1 (by omega))

/-- Strings from the end of the stack page down to `sp'`, and the words below them. -/
theorem Pushed.passesArgs (h : Pushed m d sz argv addrs sp') (hsz : sz % 4096 = 0)
    (hpage : UserPage m d (sz / 4096 - 1)) (hlow : sz - 4096 ≤ sp)
    (hsp : sp + 4 * (argv.length + 4) = sp')
    (hwords : Words m d sp (0xffffffff :: argv.length :: (sp + 12) :: addrs ++ [0]))
    (hargc : argv.length < 32) : PassesArgs m d sz sp argv addrs := by
  obtain ⟨hle, hin⟩ := h.inside
  have haligned := h.aligned (show sz % 4 = 0 by omega)
  refine ⟨hpage, hwords, h.strings, by omega, fun b hb => ?_, ?_, by unfold ustackSize; omega⟩
  · rcases List.mem_cons.mp hb with rfl | hb
    · exact ⟨hlow, show sp + 4 * (argv.length + 4) ≤ sz by omega⟩
    · have := hin b hb
      omega
  · refine List.pairwise_cons.mpr ⟨fun b hb => Or.inl ?_, h.disjoint.imp fun hb => Or.inr hb⟩
    show sp + 4 * (argv.length + 4) ≤ b.1
    have := hin b hb
    omega

theorem pushStack_pushed (h : Sound L D X σ) (hd : d ∈ D) (himg : NewImage L σ.mem d top)
    (hargc : argv.length < 32) (hargs : ∀ arg ∈ argv, arg.bytes.length < sharedbase) :
    Spec anyPanic (pushStack d ((top + 2) * 4096) argv) σ (fun r σ' => ∀ sp, r = some sp →
      Sound L D X σ' ∧ SameTables D σ.mem σ'.mem ∧ (top + 1) * 4096 ≤ sp ∧ ∃ addrs,
        Pushed σ'.mem d ((top + 2) * 4096) argv addrs (sp + 4 * (argv.length + 4)) ∧
        Words σ'.mem d sp (0xffffffff :: argv.length :: (sp + 12) :: addrs ++ [0])) := by
  have hsize : (top + 2) * 4096 < 1073741824 := himg.size
  unfold pushStack
  refine Spec.seq (pushArgs_pushed hd argv _ σ h himg (by omega) le_rfl hargs) (fun r σ₁ hr => ?_)
  cases r with
  | none => exact Spec.pure fun _ hr => nomatch hr
  | some q =>
    obtain ⟨sp₁, addrs⟩ := q
    obtain ⟨h₁, hs₁, hlow, hle, hlen, hpushed, _⟩ := hr sp₁ addrs rfl
    have himg₁ := himg.of_sameTables hd hs₁
    obtain ⟨sp₂, rfl⟩ : ∃ sp₂, sp₁ = sp₂ + (3 + argv.length + 1) * 4 :=
      ⟨sp₁ - (3 + argv.length + 1) * 4, by omega⟩
    dsimp only
    rw [hlen, wordsAddr himg₁ hlow hle hargc, Nat.add_sub_cancel]
    have hbytes := ustack_length (sp₂ + (3 + argv.length + 1) * 4) addrs
    rw [hlen] at hbytes
    have hend : top * 4096 < sp₂ + (3 + argv.length + 1) * 4 := by
      clear hsize
      omega
    refine Spec.seq ((copyout_stack h₁ hd himg₁ (by rw [hbytes]; omega) (by rw [hbytes]; exact hend)
      (by rw [hbytes]; exact hle)).weaken fun _ _ => trivial) (fun b σ₂ hr => ?_)
    cases b with
    | false => exact Spec.pure fun _ hr => nomatch hr
    | true =>
      refine Spec.pure fun sp hr' => ?_
      cases hr'
      obtain ⟨h₂, hs₂, hroom, hview⟩ := hr
      rw [show sp₂ + 4 * (argv.length + 4) = sp₂ + (3 + argv.length + 1) * 4 by omega]
      refine ⟨h₂, hs₁.trans hs₂, hroom.mp rfl, addrs, hpushed.congr fun a h1 h2 => ?_, ?_⟩
      · -- the words are below the strings
        rw [hview rfl a (by unfold sharedbase; omega)]
        unfold overlay
        rw [if_neg (by rw [hbytes]; omega)]
      · have hptr : ustack (sp₂ + (3 + argv.length + 1) * 4) addrs
            = 0xffffffff :: argv.length :: (sp₂ + 12) :: addrs ++ [0] := by
          have haddr : u32 (sp₂ + (3 + argv.length + 1) * 4 + 2 ^ 32 - (argv.length + 1) * 4)
              = sp₂ + 12 := by
            unfold u32
            omega
          unfold ustack
          rw [hlen, haddr]
        rw [hptr] at hview hbytes
        refine words_of_load _ sp₂ (fun w hw => ?_) fun k hk => ?_
        · have haddrs := hpushed.addrs_lt
          simp only [List.cons_append, List.mem_cons, List.mem_append, List.not_mem_nil,
            or_false] at hw
          rcases hw with rfl | rfl | rfl | hw | rfl
          · decide
          · omega
          · omega
          · have := haddrs w hw
            omega
          · decide
        · rw [hview rfl (sp₂ + k) (by unfold sharedbase; omega)]
          unfold overlay
          rw [if_pos ⟨by omega, by omega⟩, Nat.add_sub_cancel_left]

/-! ## The last part of `exec` -/

theorem execStack_pushed (h : Sound L D X σ) (hd : d ∈ D) (hbare : BareImage L σ.mem d sz)
    (hargc : argv.length < 32) (hargs : ∀ arg ∈ argv, arg.bytes.length < sharedbase) :
    Spec anyPanic (execStack L d sz argv) σ (fun r σ' => ∀ sz' sp, r = some (sz', sp) →
      Sound L D X σ' ∧ ∃ top addrs, sz' = (top + 2) * 4096 ∧ NewImage L σ'.mem d top ∧
        (top + 1) * 4096 ≤ sp ∧ Pushed σ'.mem d sz' argv addrs (sp + 4 * (argv.length + 4)) ∧
        Words σ'.mem d sp (0xffffffff :: argv.length :: (sp + 12) :: addrs ++ [0])) := by
  rw [execStack_eq]
  refine Spec.seq (allocStack_newImage h hd hbare) (fun r σ₁ hr => ?_)
  cases r with
  | none => exact Spec.pure fun _ _ hr => nomatch hr
  | some sz' =>
    obtain ⟨h₁, top, rfl, himg⟩ := hr sz' rfl
    refine Spec.seq (pushStack_pushed h₁ hd himg hargc hargs) (fun r σ₂ hr => ?_)
    cases r with
    | none => exact Spec.pure fun _ _ hr => nomatch hr
    | some sp =>
      refine Spec.pure fun sz'' sp' hr' => ?_
      cases hr'
      obtain ⟨h₂, hs₂, hlow, addrs, hpushed, hwords⟩ := hr sp rfl
      exact ⟨h₂, top, addrs, rfl, himg.of_sameTables hd hs₂, hlow, hpushed, hwords⟩

/-- The arguments survive the `freevm` of the old image. -/
theorem execStack_passes {old sz' : Nat} {σ₁ σ₂ : Phys} (h : Sound L D X σ) (hd : d ∈ D)
    (hbare : BareImage L σ.mem d sz) (hold : old ∈ D) (hne : d ≠ old) (hargc : argv.length < 32)
    (hargs : ∀ arg ∈ argv, arg.bytes.length < sharedbase)
    (hstack : execStack L d sz argv σ = .ok (some (sz', sp), σ₁))
    (hfree : freevm L old σ₁ = .ok ((), σ₂)) : ∃ addrs, PassesArgs σ₂.mem d sz' sp argv addrs := by
  obtain ⟨h₁, top, addrs, rfl, himg, hlow, hpushed, hwords⟩ :=
    (execStack_pushed h hd hbare hargc hargs).post hstack sz' sp rfl
  have hsize : (top + 2) * 4096 < 1073741824 := himg.size
  have hview := (freevm_view h₁ hd hold hne).post hfree
  obtain ⟨_, hsame, _⟩ := (freevm_spec (E := anyPanic) h₁ hold).post hfree
  have hend := hpushed.inside.1
  refine ⟨addrs, (hpushed.congr fun a _ h2 => hview a (by unfold sharedbase; omega)).passesArgs
    (by omega) ?_ (by omega) rfl (hwords.congr _ _ fun b _ h2 => hview b ?_) hargc⟩
  · rw [show (top + 2) * 4096 / 4096 - 1 = top + 1 by omega]
    obtain ⟨w, hw, hu⟩ := himg.stack.page
    exact ⟨w, ((hsame d ⟨hd, hne⟩).2 _ (by omega)).trans hw, hu⟩
  · have hlen := hpushed.strings.length_eq
    simp only [List.cons_append, List.length_cons, List.length_append, List.length_nil] at h2
    unfold sharedbase
    omega

end

end Xv6Sharing.Process
