/-
Xv6Sharing.Console.Machine — console input (kernel/console.c).

A step is what holds `cons.lock`: one character in the loop of `consoleintr`, or
`consoleread` from where it takes the lock, or wakes up with it, to where it
sleeps or returns. Characters are bytes, and the `uint` indices are natural
numbers modulo 2^32. A process in `consoleread` has `n` of its `target` bytes
to read.

`Line` is what the ring stands for: the bytes that were committed and not read,
and the line that is being edited.
-/
import Mathlib.Logic.Function.Basic
import Xv6Sharing.Lib.Ring

namespace Xv6Sharing.Console

open Lib

/-! ## The ring -/

def INPUT_BUF : Nat := 128

/-- `input`. -/
structure Input where
  buf : Nat → UInt8
  r : Nat
  w : Nat
  e : Nat

def newline : UInt8 := 10
def carriage : UInt8 := 13

/-- `C(x)`. -/
def ctrl (x : Char) : UInt8 := (x.toNat - '@'.toNat).toUInt8

/-- The index before `i`. -/
def before (i : Nat) : Nat := (i + 2 ^ 32 - 1) % 2 ^ 32

/-- The loop of ^U. It runs at most once for every character of the line. -/
def killLine : Nat → Input → Input
  | 0, i => i
  | fuel + 1, i =>
    if i.e ≠ i.w ∧ i.buf (before i.e % INPUT_BUF) ≠ newline then
      killLine fuel { i with e := before i.e }
    else i

/-- The body of the loop of `consoleintr`, and whether it wakes the readers. -/
def consoleintr (i : Input) (c : UInt8) : Input × Bool :=
  if c = ctrl 'P' then (i, false)
  else if c = ctrl 'U' then (killLine (ahead (2 ^ 32) i.w i.e) i, false)
  else if c = ctrl 'H' ∨ c = 0x7f then
    if i.e ≠ i.w then ({ i with e := before i.e }, false) else (i, false)
  else if c ≠ 0 ∧ ahead (2 ^ 32) i.r i.e < INPUT_BUF then
    let c := if c = carriage then newline else c
    let i' := { i with
      buf := Function.update i.buf (i.e % INPUT_BUF) c
      e := (i.e + 1) % 2 ^ 32 }
    if c = newline ∨ c = ctrl 'D' ∨ i'.e = (i'.r + INPUT_BUF) % 2 ^ 32 then
      ({ i' with w := i'.e }, true)
    else (i', false)
  else (i, false)

/-- Why a section of `consoleread` ended: all bytes were read, after a newline, before a
^D that is kept, after a ^D, or because nothing is committed. -/
inductive Stop where
  | count
  | newline
  | kept
  | eof
  | empty
  deriving DecidableEq, Repr

/-- The loop of `consoleread` with `n` bytes to go, up to its end or to `sleep`: the
bytes copied to `dst`. -/
def readLoop (target : Nat) : Nat → Input → List UInt8 × Stop × Input
  | 0, i => ([], .count, i)
  | n + 1, i =>
    if i.r = i.w then ([], .empty, i)
    else
      let c := i.buf (i.r % INPUT_BUF)
      let i' := { i with r := (i.r + 1) % 2 ^ 32 }
      if c = ctrl 'D' then
        if n + 1 < target then ([], .kept, { i' with r := before i'.r }) else ([], .eof, i')
      else if c = newline then ([c], .newline, i')
      else
        let rest := readLoop target n i'
        (c :: rest.1, rest.2)

/-! ## The line discipline -/

structure Line where
  queue : List UInt8
  edit : List UInt8

/-- What typing `c` does. -/
def Line.type (l : Line) (c : UInt8) : Line :=
  if c = ctrl 'P' then l
  else if c = ctrl 'U' then { l with edit := [] }
  else if c = ctrl 'H' ∨ c = 0x7f then { l with edit := l.edit.dropLast }
  else if c ≠ 0 ∧ l.queue.length + l.edit.length < INPUT_BUF then
    let c := if c = carriage then newline else c
    if c = newline ∨ c = ctrl 'D' ∨ l.queue.length + l.edit.length + 1 = INPUT_BUF then
      ⟨l.queue ++ (l.edit ++ [c]), []⟩
    else ⟨l.queue, l.edit ++ [c]⟩
  else l

/-- What a read of `n` bytes takes from the committed bytes, and what it leaves; it is
part of a call for `target` bytes. -/
def takeLine (target : Nat) : Nat → List UInt8 → List UInt8 × Stop × List UInt8
  | 0, q => ([], .count, q)
  | _ + 1, [] => ([], .empty, [])
  | n + 1, c :: q =>
    if c = ctrl 'D' then
      if n + 1 < target then ([], .kept, c :: q) else ([], .eof, q)
    else if c = newline then ([c], .newline, q)
    else
      let rest := takeLine target n q
      (c :: rest.1, rest.2)

/-! ## The processes -/

inductive Pc where
  | user
  | reading (n target : Nat)
  deriving DecidableEq, Repr

/-- The ring, and of each process what concerns it; `sleeping` is on `&input.r`. -/
structure Machine (P : Type) where
  input : Input
  pc : P → Pc
  sleeping : P → Bool
  killed : P → Bool

/-- What a step was: a character, or a section of `consoleread` with the bytes it copied,
why it ended and the value it returned unless it sleeps. -/
inductive Event (P : Type) where
  | internal
  | type (c : UInt8)
  | read (p : P) (n target : Nat) (bytes : List UInt8) (stop : Stop) (ret : Option Int)

section

variable {P : Type} [DecidableEq P]

/-- What a section of `consoleread` returns that ended for `stop` with `left` bytes to go. -/
def returns (target left : Nat) (killed : Bool) : Stop → Option Int
  | .empty => if killed then some (-1) else none
  | _ => some (target - left)

/-- A section of `consoleread`. -/
def consoleread (m : Machine P) (p : P) (n target : Nat) : Event P × Machine P :=
  let s := readLoop target n m.input
  let left := n - s.1.length
  let ret := returns target left (m.killed p) s.2.1
  (.read p n target s.1 s.2.1 ret,
    { m with
      input := s.2.2
      pc := Function.update m.pc p (if ret = none then .reading left target else .user)
      sleeping := Function.update m.sleeping p (ret = none) })

inductive Step (m : Machine P) : Event P → Machine P → Prop
  | type {c : UInt8} :
      Step m (.type c) { m with
        input := (consoleintr m.input c).1
        sleeping := if (consoleintr m.input c).2 then fun _ => false else m.sleeping }
  | call {p : P} {n : Nat} : m.pc p = .user →
      Step m .internal { m with pc := Function.update m.pc p (.reading n n) }
  | read {p : P} {n target : Nat} : m.pc p = .reading n target → m.sleeping p = false →
      Step m (consoleread m p n target).1 (consoleread m p n target).2
  | kill {q : P} :
      Step m .internal { m with
        killed := Function.update m.killed q true
        sleeping := Function.update m.sleeping q false }
  -- a kill that comes when the process has tested `killed` and is not asleep yet
  | killLate {q : P} : Step m .internal { m with killed := Function.update m.killed q true }
  -- the process ends and another gets its slot
  | renew {q : P} : m.pc q = .user →
      Step m .internal { m with killed := Function.update m.killed q false }

end

/-- At boot the indices are zero and nobody reads. -/
structure Started {P : Type} (m : Machine P) : Prop where
  r : m.input.r = 0
  w : m.input.w = 0
  e : m.input.e = 0
  pc : ∀ q, m.pc q = .user
  sleeping : ∀ q, m.sleeping q = false

/-- The bytes that typing `c` commits. -/
def Line.commits (l : Line) (c : UInt8) : List UInt8 := (l.type c).queue.drop l.queue.length

/-- The line discipline can take the steps `es`, the last one first: it has committed the
bytes `done` and is left with `l`. -/
inductive LineRun {P : Type} : List (Event P) → List UInt8 → Line → Prop
  | start : LineRun [] [] ⟨[], []⟩
  | internal {es : List (Event P)} {done : List UInt8} {l : Line} : LineRun es done l →
      LineRun (.internal :: es) done l
  | type {es : List (Event P)} {done : List UInt8} {l : Line} {c : UInt8} : LineRun es done l →
      LineRun (.type c :: es) (done ++ l.commits c) (l.type c)
  | read {es : List (Event P)} {done bytes rest : List UInt8} {l : Line} {p : P} {n target : Nat}
      {stop : Stop} {ret : Option Int} : LineRun es done l →
      takeLine target n l.queue = (bytes, stop, rest) →
      LineRun (.read p n target bytes stop ret :: es) done { l with queue := rest }

end Xv6Sharing.Console
