/-
Xv6Sharing.Process.Arguments — the checks on system call arguments are exact.

`argint`, `argptr`, `argstr` and the loop of `sys_exec` over argv compare and add
32-bit values. While the size of the process is below SHAREDBASE no sum that
matters wraps: an address that passed the first comparison is below 2^30, and a
size is below 2^31. `ChecksExact` collects what the four functions accept.

That nothing outside the process is read is said for every outcome, failures
included: two memories that agree on `[0, sz)` give the same result.
-/
import Xv6Sharing.Process.ArgStrings

namespace Xv6Sharing.Process

open Lib Vm Share

/-! ## The other two functions -/

/-- `argptr(n, size)`. -/
def argptr (s : Sys) (p : Slot) (esp n : Nat) (size : Int) : Fetch Nat :=
  match argint s p esp n with
  | .refused => .refused
  | .fault => .fault
  | .ok i =>
    match Share.argptr (s.proc p).sz (some i) size with
    | none => .refused
    | some a => .ok a

/-- The loop of `sys_exec` over argv from index `i` on, with room for `n` more
pointers: the pointers and the strings. -/
def argvLoop (m : Mem) (d sz uargv : Nat) : Nat → Nat → Fetch (List (Nat × List UInt8))
  | 0, _ => .refused
  | n + 1, i =>
    match fetchint m d sz ((uargv + 4 * i) % 2 ^ 32) with
    | .refused => .refused
    | .fault => .fault
    | .ok uarg =>
      if uarg = 0 then .ok []
      else
        match fetchstr m d sz uarg with
        | .refused => .refused
        | .fault => .fault
        | .ok bs =>
          match argvLoop m d sz uargv n (i + 1) with
          | .ok rest => .ok ((uarg, bs) :: rest)
          | r => r

/-- What `sys_exec` fetches of its second argument, `NELEM(argv)` being `MAXARG`. -/
def fetchArgv (s : Sys) (p : Slot) (uargv : Nat) : Fetch (List (Nat × List UInt8)) :=
  argvLoop s.phys.mem (s.proc p).pgdir (s.proc p).sz uargv 32 0

/-! ## What is accepted -/

/-- The address of argument `n`. -/
def argAddr (esp n : Nat) : Nat := (esp + 4 + 4 * n) % 2 ^ 32

/-- The byte process `p` has at `va`. -/
def Sys.byte (s : Sys) (p : Slot) (va : Nat) : Option UInt8 :=
  load s.phys.mem (s.proc p).pgdir va

/-- All of `[0, sz)` is there. -/
def Mapped (s : Sys) (p : Slot) : Prop := ∀ va < (s.proc p).sz, s.byte p va ≠ none

/-- Both processes have the same size and the same bytes in `[0, sz)`. -/
structure SameMemory (s : Sys) (p : Slot) (s' : Sys) (p' : Slot) : Prop where
  sz : (s'.proc p').sz = (s.proc p).sz
  bytes : ∀ va < (s.proc p).sz, s'.byte p' va = s.byte p va

/-- What the argument functions of process `p` accept, for user code with stack
pointer `esp`. -/
structure ChecksExact (s : Sys) (p : Slot) (esp : Nat) : Prop where
  int : ∀ n, argint s p esp n ≠ .refused ↔ argAddr esp n + 4 ≤ (s.proc p).sz
  succeeds : Mapped s p → ∀ n, (∃ i, argint s p esp n = .ok i) ↔
    argAddr esp n + 4 ≤ (s.proc p).sz
  ptr : ∀ n (size : Int) a, -2 ^ 31 ≤ size → size < 2 ^ 31 →
    (argptr s p esp n size = .ok a ↔ argint s p esp n = .ok a ∧ 0 ≤ size ∧ a < (s.proc p).sz ∧
      (a : Int) + size ≤ (s.proc p).sz)
  str : ∀ n a k, (∃ bs, argstr s p esp n = .ok (a, bs) ∧ bs.length = k) ↔
    argint s p esp n = .ok a ∧ a + k < (s.proc p).sz ∧ s.byte p (a + k) = some 0 ∧
      ∀ j < k, ∃ c, s.byte p (a + j) = some c ∧ c ≠ 0
  argv : ∀ uargv args, fetchArgv s p uargv = .ok args →
    (∀ i ≤ args.length, (uargv + 4 * i) % 2 ^ 32 + 4 ≤ (s.proc p).sz) ∧
    ∀ arg ∈ args, arg.1 + arg.2.length < (s.proc p).sz
  noFault : Mapped s p → ∀ n size uargv, argint s p esp n ≠ .fault ∧
    argptr s p esp n size ≠ .fault ∧ argstr s p esp n ≠ .fault ∧ fetchArgv s p uargv ≠ .fault
  inside : ∀ s' p', SameMemory s p s' p' → ∀ n size uargv,
    argint s' p' esp n = argint s p esp n ∧ argptr s' p' esp n size = argptr s p esp n size ∧
    argstr s' p' esp n = argstr s p esp n ∧ fetchArgv s' p' uargv = fetchArgv s p uargv

section

variable {s : Sys} {p : Slot} {m m' : Mem} {d d' sz addr esp n : Nat}

/-! ## Words -/

theorem fetchint_refused_iff (hsz : sz < sharedbase) (haddr : addr < 2 ^ 32) :
    fetchint m d sz addr = .refused ↔ sz < addr + 4 := by
  have hbase : sharedbase = 0x40000000 := rfl
  unfold fetchint
  by_cases h : addr ≥ sz ∨ (addr + 4) % 2 ^ 32 > sz
  · rw [if_pos h]
    simp only [true_iff]
    omega
  · rw [if_neg h]
    have hin : ¬ sz < addr + 4 := by omega
    cases hload : loadInt m d addr <;> simp [hin]

theorem fetchint_fault (addr : Nat) (hload : ∀ va < sz, load m d va ≠ none) (hsz : sz < sharedbase) :
    fetchint m d sz addr ≠ .fault := by
  have hbase : sharedbase = 0x40000000 := rfl
  unfold fetchint
  split
  · exact fun h => by cases h
  · next hin =>
      have hbyte : ∀ k < 4, ∃ b, load m d (addr + k) = some b :=
        fun k hk => Option.ne_none_iff_exists'.mp (hload _ (by omega))
      obtain ⟨b₀, h₀⟩ := hbyte 0 (by decide)
      obtain ⟨b₁, h₁⟩ := hbyte 1 (by decide)
      obtain ⟨b₂, h₂⟩ := hbyte 2 (by decide)
      obtain ⟨b₃, h₃⟩ := hbyte 3 (by decide)
      rw [Nat.add_zero] at h₀
      simp [loadInt, h₀, h₁, h₂, h₃]

theorem fetchint_congr (hload : ∀ va < sz, load m' d' va = load m d va) (hsz : sz < sharedbase) :
    fetchint m' d' sz addr = fetchint m d sz addr := by
  have hbase : sharedbase = 0x40000000 := rfl
  unfold fetchint
  split
  · rfl
  · next hin =>
      unfold loadInt
      rw [hload addr (by omega), hload (addr + 1) (by omega), hload (addr + 2) (by omega),
        hload (addr + 3) (by omega)]

/-! ## Strings -/

theorem isString_iff {bs : List UInt8} {a : Nat} : IsString m d a bs ↔
    load m d (a + bs.length) = some 0 ∧
      ∀ j (h : j < bs.length), load m d (a + j) = some bs[j] ∧ bs[j] ≠ 0 := by
  induction bs generalizing a with
  | nil => simp [IsString]
  | cons c bs ih =>
    simp only [IsString, ih, List.length_cons, Nat.add_right_comm a 1]
    constructor
    · rintro ⟨hc, h0, hlast, hrest⟩
      refine ⟨hlast, fun j hj => ?_⟩
      cases j with
      | zero => exact ⟨hc, h0⟩
      | succ j => exact hrest j (by omega)
    · rintro ⟨hlast, hall⟩
      exact ⟨(hall 0 (by omega)).1, (hall 0 (by omega)).2, hlast,
        fun j hj => hall (j + 1) (by omega)⟩

/-- A string of length `k` is there exactly if the first NUL is `k` bytes on. -/
theorem exists_isString_iff {a k : Nat} : (∃ bs, IsString m d a bs ∧ bs.length = k) ↔
    load m d (a + k) = some 0 ∧ ∀ j < k, ∃ c, load m d (a + j) = some c ∧ c ≠ 0 := by
  constructor
  · rintro ⟨bs, hbs, rfl⟩
    obtain ⟨hlast, hall⟩ := isString_iff.mp hbs
    exact ⟨hlast, fun j hj => ⟨bs[j], hall j hj⟩⟩
  · rintro ⟨hlast, hall⟩
    choose c hc using hall
    refine ⟨List.ofFn fun j : Fin k => c j j.isLt, isString_iff.mpr ⟨?_, fun j hj => ?_⟩, by simp⟩
    · rw [List.length_ofFn]
      exact hlast
    · rw [List.length_ofFn] at hj
      rw [List.getElem_ofFn]
      exact hc j hj

theorem fetchLoop_fault {a : Nat} (hload : ∀ va, a ≤ va → va < a + n → load m d va ≠ none) :
    fetchLoop m d n a ≠ .fault := by
  induction n generalizing a with
  | zero => exact fun h => by cases h
  | succ n ih =>
    have hrest := ih (a := a + 1) fun va h1 h2 => hload va (by omega) (by omega)
    obtain ⟨c, hc⟩ := Option.ne_none_iff_exists'.mp (hload a (by omega) (by omega))
    unfold fetchLoop
    rw [hc]
    dsimp only
    split
    · exact fun h => by cases h
    · cases hr : fetchLoop m d n (a + 1) <;> simp_all

theorem fetchLoop_congr {a : Nat}
    (hload : ∀ va, a ≤ va → va < a + n → load m' d' va = load m d va) :
    fetchLoop m' d' n a = fetchLoop m d n a := by
  induction n generalizing a with
  | zero => rfl
  | succ n ih =>
    unfold fetchLoop
    rw [hload a (by omega) (by omega), ih fun va h1 h2 => hload va (by omega) (by omega)]

theorem fetchstr_fault (addr : Nat) (hload : ∀ va < sz, load m d va ≠ none) :
    fetchstr m d sz addr ≠ .fault := by
  unfold fetchstr
  split
  · exact fun h => by cases h
  · exact fetchLoop_fault fun va _ h => hload va (by omega)

theorem fetchstr_congr (hload : ∀ va < sz, load m' d' va = load m d va) :
    fetchstr m' d' sz addr = fetchstr m d sz addr := by
  unfold fetchstr
  rw [fetchLoop_congr fun va _ h => hload va (by omega)]

/-! ## The loop of `sys_exec` -/

section Argv

variable {uargv i : Nat} {args : List (Nat × List UInt8)}

theorem argvLoop_ok (hsz : sz < sharedbase) (h : argvLoop m d sz uargv n i = .ok args) :
    (∀ j ≤ args.length, (uargv + 4 * (i + j)) % 2 ^ 32 + 4 ≤ sz) ∧
    ∀ arg ∈ args, arg.1 + arg.2.length < sz := by
  induction n generalizing i args with
  | zero => cases h
  | succ n ih =>
    unfold argvLoop at h
    have hword := fetchint_refused_iff (m := m) (d := d) hsz
      (Nat.mod_lt (uargv + 4 * i) (show 0 < 2 ^ 32 by decide))
    cases hint : fetchint m d sz ((uargv + 4 * i) % 2 ^ 32) with
    | refused => rw [hint] at h; cases h
    | fault => rw [hint] at h; cases h
    | ok uarg =>
      have hin : (uargv + 4 * (i + 0)) % 2 ^ 32 + 4 ≤ sz := by
        have hno : ¬ sz < (uargv + 4 * i) % 2 ^ 32 + 4 :=
          fun hlt => by rw [hword.mpr hlt] at hint; cases hint
        rw [Nat.add_zero]
        omega
      rw [hint] at h
      dsimp only at h
      split at h
      · cases h
        exact ⟨fun j hj => by obtain rfl : j = 0 := by simpa using hj
                              exact hin, by simp⟩
      · cases hstr : fetchstr m d sz uarg with
        | refused => rw [hstr] at h; cases h
        | fault => rw [hstr] at h; cases h
        | ok bs =>
          cases hrest : argvLoop m d sz uargv n (i + 1) with
          | refused => rw [hstr, hrest] at h; cases h
          | fault => rw [hstr, hrest] at h; cases h
          | ok rest =>
            rw [hstr, hrest] at h
            cases h
            obtain ⟨hwords, hstrs⟩ := ih hrest
            refine ⟨fun j hj => ?_, fun arg harg => ?_⟩
            · cases j with
              | zero => exact hin
              | succ j =>
                have := hwords j (by simpa using hj)
                rwa [Nat.add_assoc, Nat.add_comm 1 j] at this
            · rcases List.mem_cons.mp harg with rfl | harg
              · exact (fetchstr_ok_iff.mp hstr).1
              · exact hstrs arg harg

theorem argvLoop_fault (hload : ∀ va < sz, load m d va ≠ none) (hsz : sz < sharedbase) :
    argvLoop m d sz uargv n i ≠ .fault := by
  induction n generalizing i with
  | zero => exact fun h => by cases h
  | succ n ih =>
    have hint := fetchint_fault ((uargv + 4 * i) % 2 ^ 32) hload hsz
    have hrest := ih (i := i + 1)
    unfold argvLoop
    split
    · exact fun h => by cases h
    · next hf => exact absurd hf hint
    · next uarg _ =>
        have hstr := fetchstr_fault uarg hload
        split
        · exact fun h => by cases h
        · split
          · exact fun h => by cases h
          · next hf => exact absurd hf hstr
          · cases hr : argvLoop m d sz uargv n (i + 1) <;> simp_all

theorem argvLoop_congr (hload : ∀ va < sz, load m' d' va = load m d va) (hsz : sz < sharedbase) :
    argvLoop m' d' sz uargv n i = argvLoop m d sz uargv n i := by
  induction n generalizing i with
  | zero => rfl
  | succ n ih =>
    unfold argvLoop
    rw [fetchint_congr hload hsz, ih]
    simp only [fetchstr_congr hload]

end Argv

/-! ## All checks -/

theorem argptr_ok_iff {size : Int} {a : Nat} (hsz : (s.proc p).sz < sharedbase)
    (hsize : size < 2 ^ 31) : argptr s p esp n size = .ok a ↔
      argint s p esp n = .ok a ∧ 0 ≤ size ∧ a < (s.proc p).sz ∧
        (a : Int) + size ≤ (s.proc p).sz := by
  have hbase : sharedbase = 0x40000000 := rfl
  unfold argptr
  cases hint : argint s p esp n with
  | refused => simp
  | fault => simp
  | ok i =>
    simp only [Share.argptr, Fetch.ok.injEq]
    by_cases hbad : size < 0 ∨ i ≥ (s.proc p).sz ∨
        (i + size.toNat) % 2 ^ 32 > (s.proc p).sz
    · rw [if_pos hbad]
      simp only [reduceCtorEq, false_iff]
      rintro ⟨rfl, h⟩
      omega
    · rw [if_neg hbad]
      simp only [Fetch.ok.injEq]
      constructor
      · rintro rfl
        omega
      · exact fun h => h.1

theorem argstr_ok_iff {a : Nat} {bs : List UInt8} : argstr s p esp n = .ok (a, bs) ↔
    argint s p esp n = .ok a ∧ s.fetchstr p a = .ok bs := by
  unfold argstr
  cases hint : argint s p esp n with
  | refused => simp
  | fault => simp
  | ok i =>
    simp only [Fetch.ok.injEq]
    cases hstr : s.fetchstr p i with
    | refused => grind
    | fault => grind
    | ok bs' => grind

/-- The checks on system call arguments let through what lies in `[0, sz)` and nothing
else. -/
theorem argument_checks_exact (s : Sys) (p : Slot) (esp : Nat)
    (hsz : (s.proc p).sz < sharedbase) : ChecksExact s p esp := by
  have hrange : ∀ n, argint s p esp n ≠ .refused ↔ argAddr esp n + 4 ≤ (s.proc p).sz := by
    intro n
    have hint : argint s p esp n = .refused ↔ (s.proc p).sz < argAddr esp n + 4 :=
      fetchint_refused_iff hsz (Nat.mod_lt _ (by decide))
    exact (not_congr hint).trans Nat.not_lt
  constructor
  case int => exact hrange
  case succeeds =>
    intro hmap n
    have hfault : argint s p esp n ≠ .fault := fetchint_fault _ hmap hsz
    rw [← hrange n]
    cases hint : argint s p esp n with
    | ok i => simp
    | refused => simp
    | fault => exact absurd hint hfault
  case ptr =>
    intro n size a _ hsize
    exact argptr_ok_iff hsz hsize
  case str =>
    intro n a k
    have hstr : (∃ bs, s.fetchstr p a = .ok bs ∧ bs.length = k) ↔ a + k < (s.proc p).sz ∧
        s.byte p (a + k) = some 0 ∧ ∀ j < k, ∃ c, s.byte p (a + j) = some c ∧ c ≠ 0 := by
      constructor
      · rintro ⟨bs, hbs, rfl⟩
        obtain ⟨hin, hstring⟩ := fetchstr_ok_iff.mp hbs
        exact ⟨hin, exists_isString_iff.mp ⟨bs, hstring, rfl⟩⟩
      · rintro ⟨hin, hbytes⟩
        obtain ⟨bs, hstring, rfl⟩ := exists_isString_iff.mpr hbytes
        exact ⟨bs, fetchstr_ok_iff.mpr ⟨hin, hstring⟩, rfl⟩
    simp only [argstr_ok_iff, and_assoc, exists_and_left, hstr]
  case argv =>
    intro uargv args h
    have hok := argvLoop_ok hsz h
    simp only [Nat.zero_add] at hok
    exact hok
  case noFault =>
    intro hmap n size uargv
    have hint : argint s p esp n ≠ .fault := fetchint_fault _ hmap hsz
    have hstr : ∀ a, s.fetchstr p a ≠ .fault := fun a => fetchstr_fault a hmap
    refine ⟨hint, ?_, ?_, argvLoop_fault hmap hsz⟩
    · unfold argptr
      split <;> grind
    · unfold argstr
      split <;> grind
  case inside =>
    intro s' p' hsame n size uargv
    have hint : argint s' p' esp n = argint s p esp n := by
      unfold argint
      rw [hsame.sz]
      exact fetchint_congr hsame.bytes hsz
    refine ⟨hint, ?_, ?_, ?_⟩
    · unfold argptr
      rw [hint, hsame.sz]
    · have hstr : ∀ a, s'.fetchstr p' a = s.fetchstr p a := by
        intro a
        unfold Sys.fetchstr
        rw [hsame.sz]
        exact fetchstr_congr hsame.bytes
      unfold argstr
      simp only [hint, hstr]
    · unfold fetchArgv
      rw [hsame.sz]
      exact argvLoop_congr hsame.bytes hsz

theorem argument_checks_exact_onePage :
    (onePage.proc 0).sz < sharedbase ∧ ChecksExact onePage 0 100 :=
  ⟨by decide, argument_checks_exact onePage 0 100 (by decide)⟩

end

end Xv6Sharing.Process
