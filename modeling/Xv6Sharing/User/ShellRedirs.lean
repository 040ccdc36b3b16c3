/-
Xv6Sharing.User.ShellRedirs — the order of redirections (user/sh.c).

`parseredirs` makes the node of a redirection the parent of the command before it,
so the last redirection of a command is its outermost node, and `runcmd` applies it
first. What a descriptor refers to in the end is what the redirection applied last
opened: the first one in the text.
-/
import Mathlib.Data.List.Induction
import Xv6Sharing.User.ShellCommand

namespace Xv6Sharing.User.Sh

open Lib

/-! ## Running redirections -/

section

variable {α : Type}

/-- What the descriptors of a process refer to. -/
abbrev Fds (α : Type) := List (Option α)

/-- `open`: the lowest descriptor that is not in use. -/
def openFd (tab : Fds α) (f : α) : Option (Fds α) :=
  (tab.findIdx? Option.isNone).map fun fd => tab.set fd (some f)

/-- The case REDIR of `runcmd`; `files` says what `open` finds under a name, with a mode. -/
def runredir (files : List UInt8 → Nat → Option α) (buf : List UInt8) :
    Cmd → Fds α → Option (Cmd × Fds α)
  | .redir cmd file _ mode fd, tab => do
      let tab := tab.set fd none
      let f ← files (cut (buf.drop file)) mode
      let tab ← openFd tab f
      return (cmd, tab)
  | _, _ => none

/-- As many redirections, from the outermost on. -/
def runredirs (files : List UInt8 → Nat → Option α) (buf : List UInt8) :
    Nat → Cmd → Fds α → Option (Cmd × Fds α)
  | 0, cmd, tab => some (cmd, tab)
  | n + 1, cmd, tab => do
      let next ← runredir files buf cmd tab
      runredirs files buf n next.1 next.2

/-! ## Redirections in the text -/

/-- A simple command or a block, with its redirections in the order of the text. -/
inductive Redirected : List Tok → Cmd → List Redir → Prop
  | simple {ts us ws : List Tok} {ds es : List Redir} : Redirs ts ds → Args us ws es →
      ws.length < 10 → Redirected (ts ++ us) (execOf ws) (ds ++ es)
  | block {ts us : List Tok} {l r : Tok} {c : Cmd} {ds : List Redir} : l.kind = .lpar →
      Derives .line ts c → r.kind = .rpar → Redirs us ds →
      Redirected (l :: (ts ++ r :: us)) c ds

theorem Redirected.derives {ts : List Tok} {core : Cmd} {ds : List Redir}
    (h : Redirected ts core ds) : Derives .exec ts (wrap core ds) := by
  cases h with
  | simple hredirs hargs hlen => exact .execArgs hredirs hargs hlen
  | block hl hline hr hredirs => exact .execBlock (.block hl hline hr hredirs)

/-- The descriptor of a redirection, and the mode. -/
def fdOf (d : Redir) : Nat := if d.1.kind = .lt then 0 else 1

def modeOf (d : Redir) : Nat := if d.1.kind = .lt then 0 else writeMode

/-- What `open` finds for a redirection of the text. -/
def fileOf (files : List UInt8 → Nat → Option α) (text : List UInt8) (d : Redir) : Option α :=
  files (tokText text (d.2.q, d.2.eq)) (modeOf d)

/-- What the redirections of a descriptor name, in the order of the text. -/
def named (files : List UInt8 → Nat → Option α) (text : List UInt8) (ds : List Redir) (fd : Nat) :
    List (Option α) :=
  (ds.filter (fdOf · = fd)).map (fileOf files text)

/-- A command in a tree. -/
inductive Sub : Cmd → Cmd → Prop
  | refl {c : Cmd} : Sub c c
  | redir {c d : Cmd} {file efile mode fd : Nat} : Sub c d → Sub c (.redir d file efile mode fd)
  | pipeLeft {c l r : Cmd} : Sub c l → Sub c (.pipe l r)
  | pipeRight {c l r : Cmd} : Sub c r → Sub c (.pipe l r)
  | listLeft {c l r : Cmd} : Sub c l → Sub c (.list l r)
  | listRight {c l r : Cmd} : Sub c r → Sub c (.list l r)
  | back {c d : Cmd} : Sub c d → Sub c (.back d)

variable {files : List UInt8 → Nat → Option α} {text buf : List UInt8} {ts : List Tok}
  {ds : List Redir} {core cmd : Cmd} {tab : Fds α}

theorem Sub.words_subset {c d : Cmd} (h : Sub c d) : words c ⊆ words d := by
  induction h with
  | refl => exact List.Subset.refl _
  | redir _ ih => exact List.Subset.trans ih (List.subset_append_left _ _)
  | pipeLeft _ ih => exact List.Subset.trans ih (List.subset_append_left _ _)
  | pipeRight _ ih => exact List.Subset.trans ih (List.subset_append_right _ _)
  | listLeft _ ih => exact List.Subset.trans ih (List.subset_append_left _ _)
  | listRight _ ih => exact List.Subset.trans ih (List.subset_append_right _ _)
  | back _ ih => exact ih

theorem Redirs.isRedir {ts : List Tok} {ds : List Redir} (h : Redirs ts ds) :
    ∀ d ∈ ds, isRedir d.1.kind = true := by
  induction h with
  | nil => nofun
  | cons hop _ _ ih => exact List.forall_mem_cons.mpr ⟨hop, ih⟩

theorem Args.isRedir {ts ws : List Tok} {es : List Redir} (h : Args ts ws es) :
    ∀ d ∈ es, isRedir d.1.kind = true := by
  induction h with
  | nil => nofun
  | cons _ hredirs _ ih =>
    intro d hd
    rcases List.mem_append.mp hd with hd | hd
    · exact hredirs.isRedir d hd
    · exact ih d hd

theorem Redirected.isRedir (h : Redirected ts core ds) : ∀ d ∈ ds, Sh.isRedir d.1.kind = true := by
  cases h with
  | simple hredirs hargs _ =>
    intro d hd
    rcases List.mem_append.mp hd with hd | hd
    · exact hredirs.isRedir d hd
    · exact hargs.isRedir d hd
  | block _ _ _ hredirs => exact hredirs.isRedir

theorem addRedir_eq {d : Redir} (h : isRedir d.1.kind = true) (cmd : Cmd) :
    addRedir cmd d = .redir cmd d.2.q d.2.eq (modeOf d) (fdOf d) := by
  unfold addRedir redircmd modeOf fdOf
  revert h
  cases d.1.kind <;> intro h <;> first | rfl | cases h

theorem words_addRedir (cmd : Cmd) (d : Redir) : words cmd ⊆ words (addRedir cmd d) := by
  unfold addRedir redircmd
  repeat' split
  all_goals first | exact List.subset_append_left _ _ | exact List.Subset.refl _

theorem mem_words_wrap (hds : ∀ d ∈ ds, isRedir d.1.kind = true) {d : Redir} (hd : d ∈ ds)
    (core : Cmd) : (d.2.q, d.2.eq) ∈ words (wrap core ds) := by
  have hkept : ∀ (es : List Redir) (c : Cmd), words c ⊆ words (wrap c es) := by
    intro es
    induction es with
    | nil => exact fun _ => List.Subset.refl _
    | cons e es ih => exact fun c => List.Subset.trans (words_addRedir c e) (ih _)
  induction ds generalizing core with
  | nil => cases hd
  | cons e ds ih =>
    obtain ⟨he, hds⟩ := List.forall_mem_cons.mp hds
    rcases List.mem_cons.mp hd with rfl | hd
    · refine hkept ds (addRedir core d) ?_
      rw [addRedir_eq he]
      exact List.mem_append_right _ List.mem_cons_self
    · exact ih hds hd _

/-! ## The order of effects -/

/-- The descriptors after the redirections `ds`, the last of them applied first. -/
def applied (files : List UInt8 → Nat → Option α) (text : List UInt8) (ds : List Redir)
    (tab : Fds α) : Fds α :=
  ds.foldr (fun d tab => tab.set (fdOf d) (fileOf files text d)) tab

/-- Descriptors 0 and 1 are in use, as the shell sees to when it starts. -/
structure Open01 (tab : Fds α) : Prop where
  zero : ∃ f, tab[0]? = some (some f)
  one : ∃ f, tab[1]? = some (some f)

theorem Open01.exists_cons (h : Open01 tab) : ∃ a b rest, tab = some a :: some b :: rest := by
  obtain ⟨a, ha⟩ := h.zero
  obtain ⟨b, hb⟩ := h.one
  match tab, ha, hb with
  | _ :: _ :: rest, ha, hb =>
    cases ha
    cases hb
    exact ⟨a, b, rest, rfl⟩

/-- Closing a descriptor and opening a file gives the file that descriptor. -/
theorem Open01.openFd_set (h : Open01 tab) (d : Redir) (f : α) :
    openFd (tab.set (fdOf d) none) f = some (tab.set (fdOf d) (some f)) ∧
      Open01 (tab.set (fdOf d) (some f)) := by
  obtain ⟨a, b, rest, rfl⟩ := h.exists_cons
  by_cases hlt : d.1.kind = .lt
  · rw [fdOf, if_pos hlt]
    exact ⟨rfl, ⟨f, rfl⟩, ⟨b, rfl⟩⟩
  · rw [fdOf, if_neg hlt]
    exact ⟨rfl, ⟨a, rfl⟩, ⟨f, rfl⟩⟩

theorem runredir_addRedir {d : Redir} (hd : isRedir d.1.kind = true)
    (hname : StringAt (buf.drop d.2.q) (tokText text (d.2.q, d.2.eq)))
    (hopen : (fileOf files text d).isSome) (htab : Open01 tab) (cmd : Cmd) :
    runredir files buf (addRedir cmd d) tab = some (cmd, tab.set (fdOf d) (fileOf files text d)) ∧
      Open01 (tab.set (fdOf d) (fileOf files text d)) := by
  obtain ⟨f, hf⟩ := Option.isSome_iff_exists.mp hopen
  obtain ⟨hset, htab'⟩ := htab.openFd_set d f
  have hfile : files (cut (buf.drop d.2.q)) (modeOf d) = some f := by
    rw [cut_eq hname]
    exact hf
  rw [addRedir_eq hd, hf]
  refine ⟨?_, htab'⟩
  simp only [runredir, hfile, hset, Option.bind_eq_bind, Option.bind_some, Option.pure_def]

/-- `runcmd` comes to the command itself, with the redirections applied from the last one on. -/
theorem runredirs_wrap (hds : ∀ d ∈ ds, isRedir d.1.kind = true)
    (hnames : ∀ d ∈ ds, StringAt (buf.drop d.2.q) (tokText text (d.2.q, d.2.eq)))
    (hopen : ∀ d ∈ ds, (fileOf files text d).isSome) (htab : Open01 tab) :
    runredirs files buf ds.length (wrap core ds) tab = some (core, applied files text ds tab) := by
  induction ds using List.reverseRecOn generalizing tab with
  | nil => rfl
  | append_singleton ds d ih =>
    have hmem : d ∈ ds ++ [d] := List.mem_append_right _ List.mem_cons_self
    obtain ⟨hstep, htab'⟩ := runredir_addRedir (hds d hmem) (hnames d hmem) (hopen d hmem) htab
      (wrap core ds)
    have hwrap : wrap core (ds ++ [d]) = addRedir (wrap core ds) d := wrap_append core ds [d]
    have hsub : ∀ e ∈ ds, e ∈ ds ++ [d] := fun e he => List.mem_append_left _ he
    rw [List.length_append, List.length_singleton, runredirs, hwrap, hstep,
      Option.bind_eq_bind, Option.bind_some,
      ih (fun e he => hds e (hsub e he)) (fun e he => hnames e (hsub e he))
        (fun e he => hopen e (hsub e he)) htab', applied, applied, List.foldr_append]
    rfl

/-- The first redirection of a descriptor decides. -/
theorem getElem?_applied (files : List UInt8 → Nat → Option α) (text : List UInt8)
    (ds : List Redir) (htab : Open01 tab) (fd : Nat) :
    (applied files text ds tab)[fd]? = ((named files text ds fd).head?).or tab[fd]? := by
  induction ds with
  | nil => rfl
  | cons d ds ih =>
    have hlen : (applied files text ds tab).length = tab.length := by
      clear ih
      induction ds with
      | nil => rfl
      | cons e ds ih => exact List.length_set.trans ih
    rw [applied, List.foldr_cons, ← applied, named]
    by_cases hfd : fdOf d = fd
    · have hlt : fdOf d < (applied files text ds tab).length := by
        obtain ⟨a, b, rest, rfl⟩ := htab.exists_cons
        rw [hlen, List.length_cons, List.length_cons, fdOf]
        split <;> omega
      rw [List.filter_cons_of_pos (by simpa using hfd), ← hfd, List.getElem?_set_self hlt]
      rfl
    · rw [List.filter_cons_of_neg (by simpa using hfd), ← named, List.getElem?_set_ne hfd, ih]

end

/-- The names are read from the buffer that `nulterminate` leaves. -/
theorem redirs_applied {α : Type} {files : List UInt8 → Nat → Option α}
    {text buf buf' : List UInt8} {n : Nat} {cmd core : Cmd} {ts : List Tok} {ds : List Redir}
    {tab : Fds α} (h : StringAt buf text) (hn : 4 * text.length + 4 ≤ n)
    (hrun : parsecmd n buf = .ok (cmd, buf')) (hsub : Sub (wrap core ds) cmd)
    (hred : Redirected ts core ds) (hopen : ∀ d ∈ ds, (fileOf files text d).isSome)
    (htab : Open01 tab) : runredirs files buf' ds.length (wrap core ds) tab
      = some (core, applied files text ds tab) := by
  refine runredirs_wrap hred.isRedir (fun d hd => ?_) hopen htab
  have hmem := hsub.words_subset (mem_words_wrap hred.isRedir hd core)
  exact (parsecmd_words h hn hrun hmem).2

theorem parsecmd_redirected {buf text : List UInt8} (h : StringAt buf text) {core : Cmd}
    {ds : List Redir} (hred : Redirected (tokens text) core ds) :
    parsecmd (4 * text.length + 4) buf = .ok (wrap core ds, nulterminate (wrap core ds) buf) := by
  have hline : Derives .line (tokens text ++ []) (backs [] (wrap core ds)) :=
    .line (.pipe hred.derives) nofun
  rw [List.append_nil] at hline
  exact parsecmd_of_derives h le_rfl hline

/-- The command of the word "a" at the start of a line. -/
def cmdA : Cmd := execOf [⟨.word, 0, 1⟩]

/-- The redirections ">x" and ">y" behind it. -/
def toX : Redir := (⟨.gt, 1, 2⟩, ⟨.word, 2, 3⟩)

def toY : Redir := (⟨.gt, 3, 4⟩, ⟨.word, 4, 5⟩)

theorem redirected_x : Redirected (tokens [97, 62, 120]) cmdA [toX] :=
  .simple .nil (.cons rfl (.cons rfl rfl .nil) .nil) (by decide)

theorem redirected_xy : Redirected (tokens [97, 62, 120, 62, 121]) cmdA [toX, toY] :=
  .simple .nil (.cons rfl (.cons rfl rfl (.cons rfl rfl .nil)) .nil) (by decide)

/-- Every name is a file of its own. -/
def byName (name : List UInt8) (_ : Nat) : Option (List UInt8) := some name

/-- The descriptors of a shell. -/
def console : Fds (List UInt8) := List.replicate 3 (some [99])

theorem console_open : Open01 console := ⟨⟨[99], rfl⟩, ⟨[99], rfl⟩⟩

/-- For every simple command or block in a line that the parser accepts, when all its files can be
opened: `runcmd` comes to the command itself, and each descriptor then refers to what its last
redirection in the text names, and to what it did before if it has none, exactly when for each
descriptor the first and the last redirection name the same file. -/
theorem redirs_last_iff {α : Type} {files : List UInt8 → Nat → Option α} {text buf buf' : List UInt8}
    {n : Nat} {cmd core : Cmd} {ts : List Tok} {ds : List Redir} {tab : Fds α}
    (h : StringAt buf text) (hn : 4 * text.length + 4 ≤ n) (hrun : parsecmd n buf = .ok (cmd, buf'))
    (hsub : Sub (wrap core ds) cmd) (hred : Redirected ts core ds)
    (hopen : ∀ d ∈ ds, (fileOf files text d).isSome) (htab : Open01 tab) :
    (∃ tab', runredirs files buf' ds.length (wrap core ds) tab = some (core, tab') ∧
      ∀ fd, tab'[fd]? = ((named files text ds fd).getLast?).or tab[fd]?) ↔
      ∀ fd, (named files text ds fd).head? = (named files text ds fd).getLast? := by
  have happlied := redirs_applied h hn hrun hsub hred hopen htab
  have hfd : ∀ fd, (applied files text ds tab)[fd]? = ((named files text ds fd).getLast?).or tab[fd]?
      ↔ (named files text ds fd).head? = (named files text ds fd).getLast? := by
    intro fd
    rw [getElem?_applied files text ds htab fd]
    cases hlist : named files text ds fd with
    | nil => exact ⟨fun _ => rfl, fun _ => rfl⟩
    | cons f fs =>
      obtain ⟨g, hg⟩ : ∃ g, (f :: fs).getLast? = some g :=
        ⟨_, List.getLast?_eq_getLast_of_ne_nil (List.cons_ne_nil f fs)⟩
      rw [hg, List.head?_cons, Option.some_or, Option.some_or]
  constructor
  · rintro ⟨tab', hrun', hlast⟩ fd
    cases hrun'.symm.trans happlied
    exact (hfd fd).mp (hlast fd)
  · intro hsame
    exact ⟨_, happlied, fun fd => (hfd fd).mpr (hsame fd)⟩

/-- The line "a>x". -/
theorem redirs_last_iff_one : (∃ tab', runredirs byName (nulterminate (wrap cmdA [toX]) [97, 62, 120, 0])
    1 (wrap cmdA [toX]) console = some (cmdA, tab') ∧
      ∀ fd, tab'[fd]? = ((named byName [97, 62, 120] [toX] fd).getLast?).or console[fd]?) ↔
      ∀ fd, (named byName [97, 62, 120] [toX] fd).head?
        = (named byName [97, 62, 120] [toX] fd).getLast? := by
  have h : StringAt [97, 62, 120, 0] [97, 62, 120] := ⟨by decide, [], rfl⟩
  exact redirs_last_iff h le_rfl (parsecmd_redirected h redirected_x) .refl redirected_x
    (fun _ _ => rfl) console_open

/-- The line "a>x>y": the command writes to "x". -/
theorem redirs_first_wins : ¬ ∀ (files : List UInt8 → Nat → Option (List UInt8))
    (text buf buf' : List UInt8) (n : Nat) (cmd core : Cmd) (ts : List Tok) (ds : List Redir)
    (tab : Fds (List UInt8)), StringAt buf text → 4 * text.length + 4 ≤ n →
    parsecmd n buf = .ok (cmd, buf') → Sub (wrap core ds) cmd → Redirected ts core ds →
    (∀ d ∈ ds, (fileOf files text d).isSome) → Open01 tab →
    ∃ tab', runredirs files buf' ds.length (wrap core ds) tab = some (core, tab') ∧
      ∀ fd, tab'[fd]? = ((named files text ds fd).getLast?).or tab[fd]? := by
  intro hall
  have h : StringAt [97, 62, 120, 62, 121, 0] [97, 62, 120, 62, 121] := ⟨by decide, [], rfl⟩
  have hrun := parsecmd_redirected h redirected_xy
  have hopen : ∀ d ∈ [toX, toY], (fileOf byName [97, 62, 120, 62, 121] d).isSome := fun _ _ => rfl
  have happlied := redirs_applied h le_rfl hrun .refl redirected_xy hopen console_open
  obtain ⟨tab', hrun', hlast⟩ := hall byName _ _ _ _ _ _ _ _ console h le_rfl hrun .refl
    redirected_xy hopen console_open
  cases hrun'.symm.trans happlied
  have hone := hlast 1
  rw [getElem?_applied byName _ _ console_open 1] at hone
  revert hone
  decide

end Xv6Sharing.User.Sh
