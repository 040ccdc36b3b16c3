/-
Xv6Sharing.Share.Table — `struct shared` and the two system calls on it,
`sys_share_data` and `sys_get_data` (kernel/sysfile.c), with the string
routines they rest on (kernel/string.c).

A C string is the list of its bytes before the terminating NUL; reading
past the end of the list reads that NUL. The `name` field is a ten byte
array that need not contain a NUL, so it is a list of exactly
`sharedName` bytes.

The arguments of the calls are what `argstr`, `argptr` and `argint` hand
over: `none` where the fetch itself failed. The range check of `argptr`
is part of the model, since it decides which addresses are registered.
-/
import Mathlib.Algebra.Ring.Int.Defs
import Mathlib.Algebra.Ring.Nat
import Mathlib.Data.Finmap

namespace Xv6Sharing.Share

/-! ## Constants and strings -/

/-- `SHAREDNAME` of proc.h. -/
def sharedName : Nat := 10

/-- `SHAREDCOUNT` of proc.h. -/
def sharedCount : Nat := 10

/-- A NUL-terminated string, without its NUL. -/
structure CString where
  bytes : List UInt8
  no_nul : 0 ∉ bytes
  deriving DecidableEq, Repr

/-- `strncmp(p, q, n)`: the loop runs while the bytes agree and are not NUL. -/
def strncmp : Nat → List UInt8 → List UInt8 → Int
  | 0, _, _ => 0
  | n + 1, p, q =>
    if p.headD 0 ≠ 0 ∧ p.headD 0 = q.headD 0 then strncmp n p.tail q.tail
    else ((p.headD 0).toNat : Int) - (q.headD 0).toNat

/-- `strncpy(s, t, n)`: the `n` bytes left at `s`. The copy stops after the
NUL and the rest is filled with zeros. -/
def strncpy : Nat → List UInt8 → List UInt8
  | 0, _ => []
  | n + 1, t =>
    if t.headD 0 ≠ 0 then t.headD 0 :: strncpy n t.tail
    else 0 :: List.replicate n 0

theorem strncpy_length (n : Nat) (t : List UInt8) : (strncpy n t).length = n := by
  induction n generalizing t with
  | zero => rfl
  | succ n ih =>
    rw [strncpy]
    split
    · simp [ih]
    · simp

/-! ## The table -/

/-- `struct shared` of proc.h. -/
structure Shared where
  name : List UInt8
  memstart : Nat
  size : Int
  name_len : name.length = sharedName
  deriving DecidableEq, Repr

/-- The all-zero entry every slot of the process table starts with. -/
def Shared.zero : Shared :=
  ⟨List.replicate sharedName 0, 0, 0, List.length_replicate⟩

/-- The entry `sys_share_data` builds on its stack. -/
def Shared.make (name : CString) (vmStart : Nat) (size : Int) : Shared :=
  ⟨strncpy sharedName name.bytes, vmStart, size, strncpy_length _ _⟩

/-- The `shared[SHAREDCOUNT]` array of `struct proc`. -/
structure Table where
  entries : List Shared
  length_eq : entries.length = sharedCount
  deriving DecidableEq, Repr

/-- The table of a process slot that was never used. -/
def Table.zero : Table :=
  ⟨List.replicate sharedCount Shared.zero, List.length_replicate⟩

/-! ## Arguments -/

/-- `argptr(n, pp, size)`, given the word `argint` fetched. The sum is a
32-bit one. -/
def argptr (sz : Nat) (i : Option Nat) (size : Int) : Option Nat :=
  match i with
  | none => none
  | some i =>
    if size < 0 ∨ i ≥ sz ∨ (i + size.toNat) % 2 ^ 32 > sz then none else some i

/-- A pointer that passes starts in the process's memory. -/
theorem argptr_lt {sz a : Nat} {i : Option Nat} {size : Int} (h : argptr sz i size = some a) :
    a < sz := by
  unfold argptr at h
  split at h
  · cases h
  · split at h
    · cases h
    · cases h
      omega

/-! ## `sys_share_data` -/

/-- The loop of `sys_share_data` from index `i` on. A free slot is tested
before the name, so the scan ends at the first slot whose size is zero. -/
def shareLoop (name : CString) (vmStart : Nat) (size : Int) :
    Nat → List Shared → Int × List Shared
  | _, [] => (-3, [])
  | i, e :: rest =>
    if e.size = 0 then ((i : Int), Shared.make name vmStart size :: rest)
    else if strncmp sharedName name.bytes e.name = 0 then (-2, e :: rest)
    else
      let r := shareLoop name vmStart size (i + 1) rest
      (r.1, e :: r.2)

theorem shareLoop_length (name : CString) (vmStart : Nat) (size : Int) (i : Nat)
    (es : List Shared) : (shareLoop name vmStart size i es).2.length = es.length := by
  induction es generalizing i with
  | nil => rfl
  | cons e rest ih =>
    rw [shareLoop]
    split
    · simp
    · split
      · rfl
      · simp [ih]

/-- `sys_share_data` for a process of size `sz`. -/
def sysShareData (sz : Nat) (t : Table) (name : Option CString) (addr : Option Nat)
    (size : Option Int) : Int × Table :=
  match name, argptr sz addr 4, size with
  | some name, some vmStart, some size =>
    let r := shareLoop name vmStart size 0 t.entries
    (r.1, ⟨r.2, by rw [shareLoop_length, t.length_eq]⟩)
  | _, _, _ => (-1, t)

/-! ## `sys_get_data` -/

/-- The loop of `sys_get_data`: the first entry with that name, whether the
slot is in use or not. -/
def getLoop (name : CString) : List Shared → Option Nat
  | [] => none
  | e :: rest =>
    if strncmp sharedName name.bytes e.name = 0 then some e.memstart
    else getLoop name rest

/-- `sys_get_data`: the return value and what it stores through its second
argument, if anything. -/
def sysGetData (sz : Nat) (t : Table) (name : Option CString) (addrp : Option Nat) :
    Int × Option Nat :=
  match name, argptr sz addrp 4 with
  | some name, some _ =>
    match getLoop name t.entries with
    | some a => (0, some a)
    | none => (-2, none)
  | _, _ => (-1, none)

/-! ## The bounded map the calls are meant to be -/

/-- Names cut to `sharedName` bytes, bound to addresses. -/
abbrev NameMap := Finmap (fun _ : List UInt8 => Nat)

/-- What the table can tell of a name: its first `sharedName` bytes. -/
def CString.key (s : CString) : List UInt8 := s.bytes.take sharedName

/-- The name an entry holds: its bytes up to the first NUL. -/
def Shared.key (e : Shared) : List UInt8 := e.name.takeWhile (· != 0)

/-- The map a table stands for: its entries in use. -/
def Table.bindings (t : Table) : NameMap :=
  List.toFinmap
    ((t.entries.filter (fun e => e.size ≠ 0)).map (fun e => ⟨e.key, e.memstart⟩))

/-- A call to one of the two system calls, with the fetched arguments. -/
inductive Call where
  | share (name : Option CString) (addr : Option Nat) (size : Option Int)
  | get (name : Option CString) (addrp : Option Nat)
  deriving DecidableEq, Repr

/-- One call on the table: what it returns, what it stores, the new table. -/
def Table.call (sz : Nat) (t : Table) : Call → (Int × Option Nat) × Table
  | .share name addr size =>
    let r := sysShareData sz t name addr size
    ((r.1, none), r.2)
  | .get name addrp => (sysGetData sz t name addrp, t)

/-- The same call on the abstract map. -/
def specCall (sz : Nat) (m : NameMap) : Call → (Int × Option Nat) × NameMap
  | .share name addr size =>
    match name, argptr sz addr 4, size with
    | some name, some vmStart, some _ =>
      if name.key ∈ m then ((-2, none), m)
      else if m.keys.card = sharedCount then ((-3, none), m)
      else ((m.keys.card, none), m.insert name.key vmStart)
    | _, _, _ => ((-1, none), m)
  | .get name addrp =>
    match name, argptr sz addrp 4 with
    | some name, some _ =>
      match m.lookup name.key with
      | some a => ((0, some a), m)
      | none => ((-2, none), m)
    | _, _ => ((-1, none), m)

/-- The return values and stores of a sequence of calls on the table. -/
def Table.outputs (sz : Nat) : Table → List Call → List (Int × Option Nat)
  | _, [] => []
  | t, c :: cs => (t.call sz c).1 :: Table.outputs sz (t.call sz c).2 cs

/-- The return values and stores of a sequence of calls on the map. -/
def specOutputs (sz : Nat) : NameMap → List Call → List (Int × Option Nat)
  | _, [] => []
  | m, c :: cs => (specCall sz m c).1 :: specOutputs sz (specCall sz m c).2 cs

/-- The calls behave on the table as on the map: at every call the result is
the map's, the table afterwards stands for the map afterwards, and nothing
that was bound is unbound or moved. -/
def Behaves (sz : Nat) : Table → NameMap → List Call → Prop
  | _, _, [] => True
  | t, m, c :: cs =>
    (t.call sz c).1 = (specCall sz m c).1 ∧
    (t.call sz c).2.bindings = (specCall sz m c).2 ∧
    (∀ k a, t.bindings.lookup k = some a → (t.call sz c).2.bindings.lookup k = some a) ∧
    Behaves sz (t.call sz c).2 (specCall sz m c).2 cs

/-- The calls the table's encoding can serve: a new name is registered with a
size other than zero, and the empty name is looked up only when it is bound
or no slot is free. -/
def Call.Served (sz : Nat) (m : NameMap) : Call → Prop
  | .share name addr size =>
    ∀ n a s, name = some n → argptr sz addr 4 = some a → size = some s →
      n.key ∉ m → m.keys.card ≠ sharedCount → s ≠ 0
  | .get name addrp =>
    ∀ n a, name = some n → argptr sz addrp 4 = some a →
      n.key ∉ m → m.keys.card ≠ sharedCount → n.key ≠ []

/-- Every call of the sequence is served, in the map it meets. -/
def Served (sz : Nat) : NameMap → List Call → Prop
  | _, [] => True
  | m, c :: cs => c.Served sz m ∧ Served sz (specCall sz m c).2 cs

end Xv6Sharing.Share
