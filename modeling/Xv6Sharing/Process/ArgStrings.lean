/-
Xv6Sharing.Process.ArgStrings — system call arguments that are strings
(`fetchint`, `fetchstr`, `argint`, `argstr` of kernel/syscall.c), and the stores
other processes make while a call is using them.

`argstr` leaves the string in the caller's memory: it looks for the NUL once and
hands out the pointer. The kernel reads through the caller's page table, so what
it reads later is decided by the frames on the way to each byte (`Reads`): the
directory, the page-table page and the page itself. User code of another process
changes such a frame if and only if it maps it writable.

The proof has two halves. A store into a frame on the way to a byte of the
string spoils the string at once (`exists_spoil`). And while no other process can
write such a frame, nor its own page tables, no sequence of stores gives anyone
a new mapping (`Undisturbed`).
-/
import Xv6Sharing.Process.SharingRun

namespace Xv6Sharing.Process

open Lib Vm Share

/-! ## Memory as a process sees it -/

/-- The page of a virtual address. -/
def pageOf (va : Nat) : Nat := va / 4096 % 1048576

/-- The byte the kernel reads at `va` under page directory `d`. The kernel may
read every present page. -/
def load (m : Mem) (d va : Nat) : Option UInt8 :=
  match pteAt m d (pageOf va) with
  | none => none
  | some w => some (m (pteFrame w * 4096 + va % 4096))

/-- What fetching an argument comes to: a value, -1, or a page fault in the kernel. -/
inductive Fetch (α : Type) where
  | ok (a : α)
  | refused
  | fault
  deriving DecidableEq, Repr

/-- `*(int*)addr`. -/
def loadInt (m : Mem) (d addr : Nat) : Option Nat := do
  let b₀ ← load m d addr
  let b₁ ← load m d (addr + 1)
  let b₂ ← load m d (addr + 2)
  let b₃ ← load m d (addr + 3)
  return b₀.toNat + 256 * b₁.toNat + 65536 * b₂.toNat + 16777216 * b₃.toNat

/-- `fetchint(addr)`. -/
def fetchint (m : Mem) (d sz addr : Nat) : Fetch Nat :=
  if addr ≥ sz ∨ (addr + 4) % 2 ^ 32 > sz then .refused
  else
    match loadInt m d addr with
    | none => .fault
    | some i => .ok i

/-- The loop of `fetchstr`, from `a` with `n` bytes to the end of the memory. -/
def fetchLoop (m : Mem) (d : Nat) : Nat → Nat → Fetch (List UInt8)
  | 0, _ => .refused
  | n + 1, a =>
    match load m d a with
    | none => .fault
    | some c =>
      if c = 0 then .ok []
      else
        match fetchLoop m d n (a + 1) with
        | .ok bs => .ok (c :: bs)
        | r => r

/-- `fetchstr(addr)`: the bytes before the NUL. -/
def fetchstr (m : Mem) (d sz addr : Nat) : Fetch (List UInt8) :=
  if addr ≥ sz then .refused else fetchLoop m d (sz - addr) addr

/-- `argint(n)` of process `p`, whose user code made the call with stack pointer `esp`. -/
def argint (s : Sys) (p : Slot) (esp n : Nat) : Fetch Nat :=
  fetchint s.phys.mem (s.proc p).pgdir (s.proc p).sz ((esp + 4 + 4 * n) % 2 ^ 32)

/-- `fetchstr(addr)` of process `p`. -/
def Sys.fetchstr (s : Sys) (p : Slot) (addr : Nat) : Fetch (List UInt8) :=
  Process.fetchstr s.phys.mem (s.proc p).pgdir (s.proc p).sz addr

/-- `argstr(n)` of process `p`: the pointer and the string it found there. -/
def argstr (s : Sys) (p : Slot) (esp n : Nat) : Fetch (Nat × List UInt8) :=
  match argint s p esp n with
  | .refused => .refused
  | .fault => .fault
  | .ok addr =>
    match s.fetchstr p addr with
    | .refused => .refused
    | .fault => .fault
    | .ok bs => .ok (addr, bs)

/-! ## User code -/

/-- Processes that can be back in user code while another one is in a call. -/
def ProcState.live : ProcState → Bool
  | .sleeping | .runnable | .running => true
  | .unused | .embryo | .zombie => false

/-- The machine with byte `b` at physical address `a`. -/
def Sys.poke (s : Sys) (a : Nat) (b : UInt8) : Sys :=
  { s with phys := { s.phys with mem := storeBytes s.phys.mem a [b] } }

/-- User code of process `q` stores `b` at `va`; without a present, user and
writable page there the store does not happen. -/
def Sys.userStore (s : Sys) (q : Slot) (va : Nat) (b : UInt8) : Option Sys :=
  if (s.proc q).state.live then
    match pteAt s.phys.mem (s.proc q).pgdir (pageOf va) with
    | none => none
    | some w =>
      if user w && writable w then some (s.poke (pteFrame w * 4096 + va % 4096) b) else none
  else none

/-- A store: who, where and what. -/
abbrev Store := Slot × Nat × UInt8

/-- What happens on the machine: a system call, or a store of user code. -/
abbrev Move := (Slot × Act) ⊕ Store

/-- The machine with its user code. -/
def Moves (L : Layout) (s : Sys) : Move → Sys → Prop
  | .inl c, s' => Step L s c s'
  | .inr (q, va, b), s' => s.userStore q va b = some s'

/-- The states of all runs of system calls and stores. -/
abbrev UserRun (L : Layout) : Sys → Prop := Reach (Booted L) (Moves L) (fun _ _ => True)

/-- From `s` to `s'` processes other than `p` stored. -/
abbrev Interfered (p : Slot) (s s' : Sys) : Prop :=
  Reach (fun x => x = s) (fun x (c : Store) x' => x.userStore c.1 c.2.1 c.2.2 = some x')
    (fun _ c => c.1 ≠ p) s'

/-- The string `bs` at `addr` outlives every sequence of stores of the others. -/
def Stays (s : Sys) (p : Slot) (addr : Nat) (bs : List UInt8) : Prop :=
  ∀ s', Interfered p s s' → s'.fetchstr p addr = .ok bs

/-- User code of `q` can write frame `f`. -/
def MayWrite (s : Sys) (q : Slot) (f : Nat) : Prop :=
  (s.proc q).state.live ∧ ∃ v < 1048576, ∃ w, pteAt s.phys.mem (s.proc q).pgdir v = some w ∧
    user w ∧ writable w ∧ pteFrame w = f

/-- Frame `f` holds page tables of directory `d`. -/
def Tables (m : Mem) (d f : Nat) : Prop :=
  f = d ∨ ∃ i < 1024, tabOf m d i = some f

/-- Frame `f` is on the way to the byte at `va`. -/
def Reads (m : Mem) (d va f : Nat) : Prop :=
  f = d ∨ tabOf m d (pageOf va / 1024) = some f ∨
    ∃ w, pteAt m d (pageOf va) = some w ∧ pteFrame w = f

/-- The processes other than `p` cannot write each other's page tables. -/
def TablesKept (s : Sys) (p : Slot) : Prop :=
  ∀ q q' f, q ≠ p → q' ≠ p → (s.proc q').state.live → MayWrite s q f →
    ¬ Tables s.phys.mem (s.proc q').pgdir f

/-- No process other than `p` can write a frame on the way to one of the `n` bytes
at `addr`. -/
def OutOfReach (s : Sys) (p : Slot) (addr n : Nat) : Prop :=
  ∀ q f, q ≠ p → MayWrite s q f → ∀ j < n, ¬ Reads s.phys.mem (s.proc p).pgdir (addr + j) f

section

variable {L : Layout} {s s' : Sys} {p q : Slot} {m m' : Mem} {d a n addr va f : Nat} {b : UInt8}
  {bs : List UInt8}

/-! ## What a string is -/

/-- The bytes `bs` and a NUL stand at `a`, none of `bs` being NUL. -/
def IsString (m : Mem) (d : Nat) : Nat → List UInt8 → Prop
  | a, [] => load m d a = some 0
  | a, c :: bs => load m d a = some c ∧ c ≠ 0 ∧ IsString m d (a + 1) bs

theorem fetchLoop_ok_iff : fetchLoop m d n a = .ok bs ↔ bs.length < n ∧ IsString m d a bs := by
  induction n generalizing a bs with
  | zero => simp [fetchLoop]
  | succ n ih =>
    unfold fetchLoop
    cases hc : load m d a with
    | none => cases bs <;> simp [IsString, hc]
    | some c =>
      by_cases h0 : c = 0
      · cases bs with
        | nil => simp [IsString, hc, h0]
        | cons c' bs =>
          simp only [h0, if_true, Fetch.ok.injEq, IsString, hc, Option.some.injEq]
          grind
      · cases bs with
        | nil =>
          simp only [h0, if_false, IsString, hc, Option.some.injEq, and_false, iff_false]
          split <;> simp_all
        | cons c' bs =>
          have hrest : fetchLoop m d n (a + 1) = .ok bs ↔ bs.length < n ∧ IsString m d (a + 1) bs := ih
          simp only [h0, if_false, IsString, hc, Option.some.injEq, List.length_cons]
          split <;> grind

theorem fetchstr_ok_iff {sz : Nat} :
    fetchstr m d sz addr = .ok bs ↔ addr + bs.length < sz ∧ IsString m d addr bs := by
  unfold fetchstr
  by_cases h : addr ≥ sz
  · rw [if_pos h]
    simp only [reduceCtorEq, false_iff]
    omega
  · rw [if_neg h, fetchLoop_ok_iff]
    exact and_congr_left fun _ => by omega

theorem IsString.load (h : IsString m d a bs) {j : Nat} (hj : j < bs.length + 1) :
    load m d (a + j) = some ((bs ++ [0]).getD j 0) := by
  induction bs generalizing a j with
  | nil =>
    obtain rfl : j = 0 := by simpa using hj
    exact h
  | cons c bs ih =>
    cases j with
    | zero => exact h.1
    | succ j =>
      have := ih h.2.2 (j := j) (by simpa using hj)
      rw [Nat.add_right_comm] at this
      exact this

theorem IsString.congr (h : IsString m d a bs)
    (hload : ∀ j < bs.length + 1, Process.load m' d (a + j) = Process.load m d (a + j)) :
    IsString m' d a bs := by
  induction bs generalizing a with
  | nil => exact (hload 0 (by simp)).trans h
  | cons c bs ih =>
    refine ⟨(hload 0 (by simp)).trans h.1, h.2.1, ih h.2.2 fun j hj => ?_⟩
    have := hload (j + 1) (by simpa using hj)
    rwa [Nat.add_comm j 1, ← Nat.add_assoc] at this

theorem argstr_ok {esp : Nat} (h : argstr s p esp n = .ok (addr, bs)) : s.fetchstr p addr = .ok bs := by
  unfold argstr at h
  split at h <;> try cases h
  split at h <;> cases h
  assumption

/-! ## The frames on the way -/

theorem pageOf_lt (va : Nat) : pageOf va < 1048576 := Nat.mod_lt _ (by decide)

theorem load_congr (h : ∀ f, Reads m d va f → SamePage m m' f) : load m' d va = load m d va := by
  have hd : SamePage m m' d := h d (Or.inl rfl)
  have hpte : pteAt m' d (pageOf va) = pteAt m d (pageOf va) :=
    pteAt_congr hd (fun t ht => h t (Or.inr (Or.inl ht))) (pageOf_lt va)
  unfold load
  rw [hpte]
  cases hw : pteAt m d (pageOf va) with
  | none => rfl
  | some w =>
    have hsame := h (pteFrame w) (Or.inr (Or.inr ⟨w, hw, rfl⟩))
    exact congrArg some (hsame _ (by omega))

theorem samePage_poke {off : Nat} (hoff : off < 4096) {g : Nat} (hg : g ≠ f) :
    SamePage m (storeBytes m (f * 4096 + off) [b]) g :=
  samePage_storeBytes hoff hg

/-- A word whose low byte was overwritten with 0 is an absent entry. -/
theorem absent_poke (m : Mem) (f i : Nat) :
    present (word (storeBytes m (f * 4096 + 4 * i) [0]) f i) = false := by
  have hlow : storeBytes m (f * 4096 + 4 * i) [0] (f * 4096 + 4 * i) = 0 := by
    simp [storeBytes]
  unfold present word read32
  rw [hlow, Nat.testBit_zero]
  simp only [UInt8.toNat_zero, decide_eq_false_iff_not]
  omega

theorem load_none_of_pteAt (h : pteAt m d (pageOf va) = none) : load m d va = none := by
  unfold load
  rw [h]

/-- Every frame on the way to a byte has a byte to overwrite that spoils it. -/
theorem exists_spoil (hr : Reads m d va f) (hb : load m d va = some b) :
    ∃ off < 4096, ∃ c, load (storeBytes m (f * 4096 + off) [c]) d va ≠ some b := by
  have hpage := pageOf_lt va
  -- clear the present bit on one of the two levels if `f` is a page table here
  by_cases hd : f = d
  · subst hd
    refine ⟨4 * (pageOf va / 1024), by omega, 0, ?_⟩
    rw [load_none_of_pteAt (pteAt_none_of_tabOf _)]
    · exact (Option.some_ne_none _).symm
    · unfold tabOf
      rw [absent_poke]
      rfl
  obtain ⟨w, hw⟩ : ∃ w, pteAt m d (pageOf va) = some w := by
    unfold load at hb
    split at hb
    · cases hb
    · next w hw => exact ⟨w, hw⟩
  obtain ⟨t, ht, htw⟩ := tabOf_of_pteAt hw
  have htab : ∀ off < 4096, ∀ c,
      tabOf (storeBytes m (f * 4096 + off) [c]) d (pageOf va / 1024) = some t :=
    fun off hoff c => (tabOf_congr (samePage_poke hoff (Ne.symm hd)) (by omega)).trans ht
  by_cases hft : f = t
  · subst hft
    refine ⟨4 * (pageOf va % 1024), by omega, 0, ?_⟩
    rw [load_none_of_pteAt]
    · exact (Option.some_ne_none _).symm
    · rw [pteAt_of_tabOf (htab _ (by omega) 0), absent_poke]
      rfl
  -- otherwise it is the page itself
  have hfw : pteFrame w = f := by
    rcases hr with hr | hr | ⟨w', hw', hr⟩
    · exact absurd hr hd
    · rw [ht] at hr
      exact absurd (Option.some.inj hr).symm hft
    · rw [hw] at hw'
      rw [Option.some.inj hw']
      exact hr
  obtain ⟨c, hc⟩ : ∃ c, c ≠ b := ⟨if b = 0 then 1 else 0, by split <;> grind⟩
  refine ⟨va % 4096, by omega, c, ?_⟩
  have hpte : pteAt (storeBytes m (f * 4096 + va % 4096) [c]) d (pageOf va) = some w := by
    have hsame := (samePage_poke (m := m) (b := c) (show va % 4096 < 4096 by omega)
      (Ne.symm hft)).word (show pageOf va % 1024 < 1024 by omega)
    rw [pteAt_of_tabOf (htab _ (by omega) c), hsame, ← pteAt_of_tabOf ht, hw]
  unfold load
  rw [hpte]
  simp [storeBytes, hfw, hc]

/-! ## Stores -/

theorem userStore_some (h : s.userStore q va b = some s') :
    ∃ f off, off < 4096 ∧ MayWrite s q f ∧ s' = s.poke (f * 4096 + off) b := by
  unfold Sys.userStore at h
  split at h
  · next hlive =>
      split at h
      · cases h
      · next w hw =>
          split at h
          · next hflags =>
              rw [Bool.and_eq_true] at hflags
              exact ⟨pteFrame w, va % 4096, by omega,
                ⟨hlive, pageOf va, pageOf_lt va, w, hw, hflags.1, hflags.2, rfl⟩,
                (Option.some.inj h).symm⟩
          · cases h
  · cases h

/-- And to every byte of such a frame there is a store. -/
theorem MayWrite.userStore (h : MayWrite s q f) {off : Nat} (hoff : off < 4096) (b : UInt8) :
    ∃ va, s.userStore q va b = some (s.poke (f * 4096 + off) b) := by
  obtain ⟨hlive, v, hv, w, hw, huser, hwrite, rfl⟩ := h
  refine ⟨v * 4096 + off, ?_⟩
  have hpage : pageOf (v * 4096 + off) = v := by
    unfold pageOf
    omega
  have hmod : (v * 4096 + off) % 4096 = off := by omega
  unfold Sys.userStore
  rw [if_pos hlive, hpage, hw]
  simp [huser, hwrite, hmod]

/-- What the stores of the processes other than `p` leave as it was. -/
structure Undisturbed (s : Sys) (p : Slot) (addr n : Nat) (s' : Sys) : Prop where
  proc : s'.proc = s.proc
  tables : ∀ q f, q ≠ p → (s.proc q).state.live → Tables s.phys.mem (s.proc q).pgdir f →
    SamePage s.phys.mem s'.phys.mem f
  string : ∀ j < n, ∀ f, Reads s.phys.mem (s.proc p).pgdir (addr + j) f →
    SamePage s.phys.mem s'.phys.mem f

/-- The others can write what they could write before. -/
theorem Undisturbed.mayWrite (h : Undisturbed s p addr n s') (hq : q ≠ p)
    (hw : MayWrite s' q f) : MayWrite s q f := by
  obtain ⟨hlive, v, hv, w, hpte, hflags⟩ := hw
  rw [h.proc] at hlive hpte
  have hsame : pteAt s'.phys.mem (s.proc q).pgdir v = pteAt s.phys.mem (s.proc q).pgdir v :=
    pteAt_congr (h.tables q _ hq hlive (Or.inl rfl))
      (fun t ht => h.tables q t hq hlive (Or.inr ⟨v / 1024, by omega, ht⟩)) hv
  exact ⟨hlive, v, hv, w, hsame ▸ hpte, hflags⟩

theorem Undisturbed.store (h : Undisturbed s p addr n s') (hkept : TablesKept s p)
    (hun : OutOfReach s p addr n) (hq : q ≠ p) {s'' : Sys}
    (hst : s'.userStore q va b = some s'') : Undisturbed s p addr n s'' := by
  obtain ⟨f, off, hoff, hw, rfl⟩ := userStore_some hst
  have hw' := h.mayWrite hq hw
  have hother : ∀ g, g ≠ f → SamePage s.phys.mem s'.phys.mem g →
      SamePage s.phys.mem (s'.poke (f * 4096 + off) b).phys.mem g :=
    fun g hg hsame => hsame.trans (samePage_poke hoff hg)
  refine ⟨h.proc, fun q' g hq' hlive hg => ?_, fun j hj g hg => ?_⟩
  · refine hother g ?_ (h.tables q' g hq' hlive hg)
    rintro rfl
    exact hkept q q' g hq hq' hlive hw' hg
  · refine hother g ?_ (h.string j hj g hg)
    rintro rfl
    exact hun q g hq hw' j hj hg

theorem Interfered.undisturbed (h : Interfered p s s') (hkept : TablesKept s p)
    (hun : OutOfReach s p addr n) : Undisturbed s p addr n s' := by
  refine Reach.invariant (I := Undisturbed s p addr n) ?_ ?_ h
  · rintro x rfl
    exact ⟨rfl, fun _ f _ _ _ => SamePage.refl _ f, fun _ _ f _ => SamePage.refl _ f⟩
  · intro x c x' hx hne hst
    exact hx.store hkept hun hne hst

/-- One store into a frame on the way to a byte of the string is enough. -/
theorem Stays.outOfReach (h : Stays s p addr bs) : OutOfReach s p addr (bs.length + 1) := by
  obtain ⟨_, hstring⟩ := fetchstr_ok_iff.mp (h s (.base rfl))
  intro q f hq hw j hj hreads
  obtain ⟨off, hoff, c, hspoil⟩ := exists_spoil hreads (hstring.load hj)
  obtain ⟨va, hst⟩ := hw.userStore hoff c
  have hafter := h _ (.next (a := (q, va, c)) (.base rfl) hq hst)
  exact hspoil ((fetchstr_ok_iff.mp hafter).2.load hj)

theorem OutOfReach.stays (h : OutOfReach s p addr (bs.length + 1)) (hkept : TablesKept s p)
    (hfetch : s.fetchstr p addr = .ok bs) : Stays s p addr bs := by
  obtain ⟨hin, hstring⟩ := fetchstr_ok_iff.mp hfetch
  intro s' hs'
  have hun := hs'.undisturbed hkept h
  unfold Sys.fetchstr
  rw [hun.proc]
  exact fetchstr_ok_iff.mpr ⟨hin, hstring.congr fun j hj => load_congr (hun.string j hj)⟩

end

/-- One process of 4096 bytes, all zero: directory in frame 1, page table in frame 2,
page in frame 3. -/
def onePage : Sys :=
  { powerOn fun a => if a = 4096 ∨ a = 8192 then 7 else if a = 4097 then 32
      else if a = 8193 then 48 else 0 with
    proc := Function.update (fun _ => Proc.zero) 0
      { Proc.zero with pgdir := 1, sz := 4096, state := .runnable } }

section

variable {L : Layout} {s : Sys} {q : Slot} {f v : Nat}

theorem Run.userRun {ok : Sys → Slot × Act → Prop} (h : Run L ok s) : UserRun L s := by
  induction h with
  | base hboot => exact .base hboot
  | next _ _ hst ih => exact .next (a := .inl _) ih trivial hst

/-- User code fills a part of a page of its own, byte by byte. -/
theorem UserRun.fill (off : Nat) (bs : List UInt8) {D : Set Nat} (h : UserRun L s)
    (hlive : (s.proc q).state.live) (hd : (s.proc q).pgdir ∈ D) (hv : v < 1048576)
    (hpage : pteAt s.phys.mem (s.proc q).pgdir v
      = some (f * 4096 ||| (pteW ||| pteU) ||| pteP))
    (hnt : NotTable s.phys.mem D f) (hlen : off + bs.length ≤ 4096) :
    UserRun L { s with
      phys := { s.phys with mem := storeBytes s.phys.mem (f * 4096 + off) bs } } := by
  induction bs generalizing s off with
  | nil =>
    have hnil : storeBytes s.phys.mem (f * 4096 + off) [] = s.phys.mem := by
      funext x
      simp only [storeBytes, List.length_nil]
      rw [if_neg (by omega)]
    rw [hnil]
    exact h
  | cons c bs ih =>
    have hoff : off < 4096 := by
      rw [List.length_cons] at hlen
      omega
    have hframe : pteFrame (f * 4096 ||| (pteW ||| pteU) ||| pteP) = f :=
      pteFrame_mk (by decide)
    have hw : MayWrite s q f := ⟨hlive, v, hv, _, hpage, by rw [user_mk]; decide,
      by rw [writable_mk]; decide, hframe⟩
    obtain ⟨va, hst⟩ := hw.userStore hoff c
    have hrun : UserRun L (s.poke (f * 4096 + off) c) := .next (a := .inr (q, va, c)) h trivial hst
    have hsame : SameTables D s.phys.mem (s.poke (f * 4096 + off) c).phys.mem :=
      sameTables_of_notTable hnt (fun _ hg => samePage_poke hoff hg)
    have hrest := ih (s := s.poke (f * 4096 + off) c) (off + 1) hrun hlive hd
      ((hsame _ hd).2 v hv |>.trans hpage)
      ⟨hnt.1, fun d hd i hi => (hsame d hd).1 i hi ▸ hnt.2 d hd i hi⟩
      (by rw [List.length_cons] at hlen; omega)
    rw [storeBytes_cons, Nat.add_assoc]
    exact hrest

end

end Xv6Sharing.Process
