/-
Xv6Sharing.User.Shell — the parser of the shell (user/sh.c).

A pointer into the line is a position in it, and the position that the parser has
reached is its state. The line is NUL-terminated, so `*s` at its end is 0. A command
tree keeps the words as pairs of positions, as `argv`/`eargv` and `file`/`efile` do.
`parseexec` fills in `argv` of a node that redirections already point to; `addArg`
is that store. The loops and the recursion are bounded by a number of rounds.
-/
import Xv6Sharing.Lib.CString
import Xv6Sharing.Lib.Run

namespace Xv6Sharing.User.Sh

open Lib

/-- The command trees. -/
inductive Cmd
  | exec (argv : List (Nat × Nat))
  | redir (cmd : Cmd) (file efile mode fd : Nat)
  | pipe (left right : Cmd)
  | list (left right : Cmd)
  | back (cmd : Cmd)
  deriving DecidableEq

/-- The panics of the parser: "syntax" (also with "leftovers"), "missing file for redirection",
"parseblock", "syntax - missing )" and "too many args". -/
inductive Panic
  | badSyntax
  | leftovers
  | missingFile
  | parseblock
  | missingParen
  | tooManyArgs
  deriving DecidableEq

/-- A run that does not return: a panic, or one with too few rounds. -/
inductive Stop
  | panic (p : Panic)
  | rounds

abbrev ParseM := StateT Nat (Except Stop)

/-- The characters of `" \t\r\n\v"`. -/
def whitespace : List UInt8 := [32, 9, 13, 10, 11]

/-- The characters of `"<|>&;()"`. -/
def symbols : List UInt8 := [60, 124, 62, 38, 59, 40, 41]

def isWhitespace (c : UInt8) : Bool := whitespace.contains c

def isWordChar (c : UInt8) : Bool := !whitespace.contains c && !symbols.contains c

/-- The loop `while(s < es && p(*s)) s++`, over what is left of the line. -/
def skipFrom (p : UInt8 → Bool) : List UInt8 → Nat → Nat
  | [], s => s
  | c :: rest, s => if p c then skipFrom p rest (s + 1) else s

def skip (p : UInt8 → Bool) (text : List UInt8) (s : Nat) : Nat := skipFrom p (text.drop s) s

/-- `*s`. -/
def charAt (text : List UInt8) (s : Nat) : UInt8 := text.getD s 0

/-- The switch of `gettoken`: the value returned and the end of the token. -/
def tokenAt (text : List UInt8) (s : Nat) : UInt8 × Nat :=
  let c := charAt text s
  if c = 0 then (0, s)
  else if [124, 40, 41, 59, 38, 60].contains c then (c, s + 1)
  else if c = 62 then
    if charAt text (s + 1) = 62 then (43, s + 2) else (62, s + 1)
  else (97, skip isWordChar text s)

def gettoken (text : List UInt8) : ParseM (UInt8 × Nat × Nat) := do
  let s ← get
  let q := skip isWhitespace text s
  let tok := tokenAt text q
  set (skip isWhitespace text tok.2)
  return (tok.1, q, tok.2)

def peek (text toks : List UInt8) : ParseM Bool := do
  let s ← get
  let s := skip isWhitespace text s
  set s
  return charAt text s ≠ 0 && toks.contains (charAt text s)

/-- The mode O_WRONLY|O_CREATE. -/
def writeMode : Nat := 0x201

/-- The switch of `parseredirs`. -/
def redircmd (cmd : Cmd) (tok : UInt8) (q eq : Nat) : Cmd :=
  if tok = 60 then .redir cmd q eq 0 0
  else if tok = 62 then .redir cmd q eq writeMode 1
  else if tok = 43 then .redir cmd q eq writeMode 1
  else cmd

def parseredirs (text : List UInt8) : Nat → Cmd → ParseM Cmd
  | 0, _ => throw .rounds
  | n + 1, cmd => do
      let more ← peek text [60, 62]
      if more then do
        let op ← gettoken text
        let file ← gettoken text
        if file.1 ≠ 97 then throw (.panic .missingFile)
        else parseredirs text n (redircmd cmd op.1 file.2.1 file.2.2)
      else return cmd

/-- The store to `argv` and `eargv` of the node inside the redirections. -/
def addArg (w : Nat × Nat) : Cmd → Cmd
  | .exec argv => .exec (argv ++ [w])
  | .redir cmd file efile mode fd => .redir (addArg w cmd) file efile mode fd
  | cmd => cmd

/-- The loop of `parseexec`; MAXARGS is 10. -/
def parseargs (text : List UInt8) : Nat → Nat → Cmd → ParseM Cmd
  | 0, _, _ => throw .rounds
  | n + 1, argc, ret => do
      let stop ← peek text [124, 41, 38, 59]
      if stop then return ret
      else do
        let tok ← gettoken text
        if tok.1 = 0 then return ret
        else if tok.1 ≠ 97 then throw (.panic .badSyntax)
        else if argc + 1 ≥ 10 then throw (.panic .tooManyArgs)
        else do
          let ret ← parseredirs text (text.length + 1) (addArg tok.2 ret)
          parseargs text n (argc + 1) ret

/-- The loop of `parseline`. -/
def parseback (text : List UInt8) : Nat → Cmd → ParseM Cmd
  | 0, _ => throw .rounds
  | n + 1, cmd => do
      let more ← peek text [38]
      if more then do
        let _ ← gettoken text
        parseback text n (.back cmd)
      else return cmd

mutual

def parseline (text : List UInt8) : Nat → ParseM Cmd
  | 0 => throw .rounds
  | n + 1 => do
      let cmd ← parsepipe text n
      let cmd ← parseback text (text.length + 1) cmd
      let more ← peek text [59]
      if more then do
        let _ ← gettoken text
        let right ← parseline text n
        return .list cmd right
      else return cmd

def parsepipe (text : List UInt8) : Nat → ParseM Cmd
  | 0 => throw .rounds
  | n + 1 => do
      let cmd ← parseexec text n
      let more ← peek text [124]
      if more then do
        let _ ← gettoken text
        let right ← parsepipe text n
        return .pipe cmd right
      else return cmd

def parseblock (text : List UInt8) : Nat → ParseM Cmd
  | 0 => throw .rounds
  | n + 1 => do
      let opened ← peek text [40]
      if !opened then throw (.panic .parseblock)
      else do
        let _ ← gettoken text
        let cmd ← parseline text n
        let closed ← peek text [41]
        if !closed then throw (.panic .missingParen)
        else do
          let _ ← gettoken text
          parseredirs text (text.length + 1) cmd

def parseexec (text : List UInt8) : Nat → ParseM Cmd
  | 0 => throw .rounds
  | n + 1 => do
      let block ← peek text [40]
      if block then parseblock text n
      else do
        let ret ← parseredirs text (text.length + 1) (.exec [])
        parseargs text (text.length + 1) 0 ret

end

/-- NUL-terminates the words of the tree. -/
def nulterminate : Cmd → List UInt8 → List UInt8
  | .exec argv, buf => argv.foldl (fun buf w => buf.set w.2 0) buf
  | .redir cmd _ efile _ _, buf => (nulterminate cmd buf).set efile 0
  | .pipe left right, buf => nulterminate right (nulterminate left buf)
  | .list left right, buf => nulterminate right (nulterminate left buf)
  | .back cmd, buf => nulterminate cmd buf

/-- The tree, and the buffer that its positions point to. -/
def parsecmd (n : Nat) (buf : List UInt8) : Except Stop (Cmd × List UInt8) := do
  let text := cut buf
  let (cmd, s) ← (parseline text n).run 0
  let (_, s) ← (peek text []).run s
  if s ≠ text.length then throw (.panic .leftovers)
  else return (cmd, nulterminate cmd buf)

end Xv6Sharing.User.Sh
