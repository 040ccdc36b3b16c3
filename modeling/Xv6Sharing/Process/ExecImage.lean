/-
Xv6Sharing.Process.ExecImage — the image `exec` builds from a file.

The loading phase is the loop over the program headers (`execLoad`) and the
allocation of the stack (`allocStack`); `exec_eq_image` says that this is what
`exec` runs when the shared table is empty. Whatever bytes the file has, it
reaches no panic: after every header the pages below the size so far are mapped
and those above are not, which is what `mappages`, `loaduvm` and `clearpteu`
need. When it succeeds, each address holds the file byte of the last segment
whose file part covers it, or 0.

How the proof goes. `Shows` says what the pages below the size show. One header
is `allocuvm` (zero pages, where no segment so far reaches) and `loaduvm` (one
more layer of file bytes); the loop is an induction over the headers left with
the list of those done.
-/
import Xv6Sharing.Process.View

namespace Xv6Sharing.Process

open Lib Vm Share

/-! ## The loading phase -/

/-- `exec` up to and including `clearpteu`, for a process that shares nothing:
directory, size and entry point, or `none` after the cleanup at `bad`. -/
def execImage (L : Layout) (file : Option (List UInt8)) : Kern (Option (Nat × Nat × Nat)) := do
  match ← execLoad L file with
  | none => return none
  | some (pgdir, sz, entry) =>
    match ← allocStack L pgdir sz with
    | none =>
      freevm L pgdir
      return none
    | some sz' => return some (pgdir, sz', entry)

/-! ## What the file says -/

/-- The file part of the segment covers address `a`. -/
def ProgHdr.covers (ph : ProgHdr) (a : Nat) : Bool :=
  ph.vaddr ≤ a && a < ph.vaddr + ph.filesz

/-- The loadable ones among `n` program headers from offset `off` on. -/
def loadHdrs (file : List UInt8) : Nat → Nat → List ProgHdr
  | 0, _ => []
  | n + 1, off =>
    let ph := proghdr ((file.drop off).take proghdrSize)
    if ph.type = elfProgLoad then ph :: loadHdrs file n (u32 (off + proghdrSize))
    else loadHdrs file n (u32 (off + proghdrSize))

/-- The loadable program headers of a file, in order. -/
def segments (file : List UInt8) : List ProgHdr :=
  loadHdrs file (elfhdr (file.take elfhdrSize)).phnum (elfhdr (file.take elfhdrSize)).phoff

/-- The byte the segments put at address `a`: the last one that covers it decides. -/
def imageByte (file : List UInt8) (phs : List ProgHdr) (a : Nat) : Option UInt8 :=
  match phs.reverse.find? (·.covers a) with
  | none => some 0
  | some ph => file[u32 (ph.off + (a - ph.vaddr))]?

theorem covers_iff {ph : ProgHdr} {a : Nat} :
    ph.covers a = true ↔ ph.vaddr ≤ a ∧ a < ph.vaddr + ph.filesz := by
  simp [ProgHdr.covers]

theorem imageByte_append (file : List UInt8) (phs : List ProgHdr) (ph : ProgHdr) (a : Nat) :
    imageByte file (phs ++ [ph]) a
      = if ph.vaddr ≤ a ∧ a < ph.vaddr + ph.filesz then file[u32 (ph.off + (a - ph.vaddr))]?
        else imageByte file phs a := by
  unfold imageByte
  rw [List.reverse_append, List.reverse_singleton, List.singleton_append, List.find?_cons]
  by_cases hc : ph.vaddr ≤ a ∧ a < ph.vaddr + ph.filesz
  · rw [if_pos hc, covers_iff.mpr hc]
  · rw [if_neg hc, Bool.eq_false_iff.mpr fun ht => hc (covers_iff.mp ht)]

/-- Above the end of every segment there are zeros. -/
theorem imageByte_above {file : List UInt8} {phs : List ProgHdr} {a : Nat}
    (h : ∀ ph ∈ phs, ph.vaddr + ph.filesz ≤ a) : imageByte file phs a = some 0 := by
  unfold imageByte
  rw [List.find?_eq_none.mpr fun ph hph hc => ?_]
  have := h ph (List.mem_reverse.mp hph)
  have := (covers_iff.mp hc).2
  omega

/-! ## The loop over the program headers -/

/-- The pages below `sz` show the memory `g`. -/
def Shows (m : Mem) (d sz : Nat) (g : Nat → Option UInt8) : Prop :=
  ∀ a, a / 4096 * 4096 < sz → load m d a = g a

section

variable {L : Layout} {D X : Set Nat} {σ σ' : Phys} {d : Nat}

theorem readi_eq {file bs : List UInt8} {off n : Nat} (h : readi file off n = some bs) :
    bs = (file.drop off).take n := by
  unfold readi at h
  split at h
  · cases h
  · cases h
    rfl

/-- The loop over the program headers: `phs` are the loadable ones done so far. -/
theorem loadSegments_view {file : List UInt8} (hd : d ∈ D) :
    ∀ (n off sz : Nat) (phs : List ProgHdr) (σ : Phys), Sound L D X σ → Image σ.mem d sz →
    sz < sharedbase → (∀ ph ∈ phs, ph.vaddr + ph.filesz ≤ sz) →
    Shows σ.mem d sz (imageByte file phs) →
    Spec anyPanic (loadSegments L d file n off sz) σ (fun r σ' => ∀ sz', r = some sz' →
      sz' < sharedbase ∧ (∀ ph ∈ phs ++ loadHdrs file n off, ph.vaddr + ph.filesz ≤ sz') ∧
      Shows σ'.mem d sz' (imageByte file (phs ++ loadHdrs file n off))) := by
  intro n
  induction n with
  | zero =>
    intro off sz phs σ h himg hsz hends hshow
    refine Spec.pure fun sz' hr => ?_
    cases hr
    rw [loadHdrs, List.append_nil]
    exact ⟨hsz, hends, hshow⟩
  | succ n ih =>
    intro off sz phs σ h himg hsz hends hshow
    have hhead : ∀ bs, readi file off proghdrSize = some bs →
        loadHdrs file (n + 1) off = if (proghdr bs).type = elfProgLoad then
          proghdr bs :: loadHdrs file n (u32 (off + proghdrSize))
        else loadHdrs file n (u32 (off + proghdrSize)) := by
      intro bs hread
      rw [readi_eq hread]
      rfl
    refine loadRound (fun _ hr => nomatch hr) (fun bs hread htype => ?_)
      (fun bs ph hread hph htype hfile => ?_)
    · rw [hhead bs hread, if_neg htype]
      exact ih _ sz phs σ h himg hsz hends hshow
    rw [hhead bs hread, ← hph, if_pos htype]
    refine ((allocuvm_image (E := anyPanic) h hd himg hsz.le).and
      (allocuvm_view _ h hd himg hsz)).mono fun sz₁ σ₁ hr => ?_
    obtain ⟨⟨h₁, _, hgrow, _⟩, hview⟩ := hr
    refine ⟨fun _ hr => (nomatch hr), fun hz halign => ?_⟩
    obtain ⟨_, hb₁, _⟩ := hgrow hz
    obtain ⟨hmax, hlt₁, hkept, hzero⟩ := hview hz
    -- the new pages are above every segment so far
    have hshow₁ : Shows σ₁.mem d sz₁ (imageByte file phs) := by
      intro a ha
      by_cases hold : a / 4096 * 4096 < sz
      · rw [hkept a hold]
        exact hshow a hold
      · rw [hzero a (by omega) ha, imageByte_above fun ph hph => ?_]
        have := hends ph hph
        omega
    have htop : ph.vaddr + ph.filesz ≤ sz₁ := by omega
    have hpages : ∀ x, ph.vaddr ≤ x * 4096 → x * 4096 < ph.vaddr + ph.filesz →
        pteAt σ₁.mem d x ≠ none :=
      fun x _ hx => hb₁.image.inside x (by omega)
    refine ((loaduvm_spec (E := anyPanic) h₁ hd halign (htop.trans hlt₁.le) hpages).and
      (loaduvm_view h₁ hd halign (htop.trans hlt₁.le) hpages)).mono fun b σ₂ hr => ?_
    obtain ⟨⟨h₂, hs₂, _⟩, hlayer⟩ := hr
    refine ⟨fun _ _ hr => (nomatch hr), fun hb => ?_⟩
    have hb₂ := hb₁.of_sameTables hd hs₂
    have hends₂ : ∀ ph' ∈ phs ++ [ph], ph'.vaddr + ph'.filesz ≤ sz₁ := by
      intro ph' hph'
      rcases List.mem_append.mp hph' with hph' | hph'
      · have := hends ph' hph'
        omega
      · rw [List.mem_singleton.mp hph']
        exact htop
    have hshow₂ : Shows σ₂.mem d sz₁ (imageByte file (phs ++ [ph])) := by
      intro a ha
      have hlt : a < sharedbase := by
        unfold sharedbase at hlt₁ ⊢
        omega
      rw [imageByte_append, hlayer hb a hlt, hshow₁ a ha]
    have hgo := ih (u32 (off + proghdrSize)) sz₁ (phs ++ [ph]) σ₂ h₂ hb₂.image hlt₁ hends₂ hshow₂
    rw [List.append_assoc, List.singleton_append] at hgo
    exact hgo

/-- The first part of `exec`, as far as its segments go. -/
theorem execLoad_view (file : List UInt8) (h : Sound L D X σ) :
    Spec anyPanic (execLoad L (some file)) σ (fun r σ' => ∀ d sz entry, r = some (d, sz, entry) →
      sz < sharedbase ∧ (∀ ph ∈ segments file, ph.vaddr + ph.filesz ≤ sz) ∧
      Shows σ'.mem d sz (imageByte file (segments file))) := by
  unfold execLoad
  dsimp only
  cases hread : readi file 0 elfhdrSize with
  | none => exact Spec.pure fun _ _ _ hr => nomatch hr
  | some bs =>
    have hbs : file.take elfhdrSize = bs := (readi_eq hread).symm
    dsimp only
    by_cases hhdr : bs.length ≠ elfhdrSize ∨ (elfhdr bs).magic ≠ elfMagic
    · rw [if_pos hhdr]
      exact Spec.pure fun _ _ _ hr => nomatch hr
    rw [if_neg hhdr]
    refine Spec.seq (setupkvm_spec h) (fun r σ₁ hr => ?_)
    obtain ⟨_, ⟨rfl, _⟩ | ⟨d, rfl, hfree, _, h₁, hkern, _⟩⟩ := hr
    · exact Spec.pure fun _ _ _ hr => nomatch hr
    have hd : d ∈ insert d D := Set.mem_insert d D
    have himg : Image σ₁.mem d 0 := by
      refine ⟨fun v hv => absurd hv (Nat.not_lt_zero _), fun v hv _ => ?_⟩
      rw [hkern v (by omega)]
      exact kmapPte_user (Ram.data_lt (h.pool_of_free hfree)) (by omega)
    refine Spec.seq (loadSegments_view hd _ _ 0 [] σ₁ h₁ himg (by decide)
      (fun _ hph => nomatch hph) (fun a ha => absurd ha (Nat.not_lt_zero _)))
      (fun r σ₂ hr => ?_)
    cases r with
    | none => exact Spec.seq (Spec.any fun _ => trivial) fun _ _ _ =>
      Spec.pure fun _ _ _ hr => nomatch hr
    | some sz =>
      refine Spec.pure fun d' sz' entry hr' => ?_
      cases hr'
      have hall := hr sz rfl
      rw [List.nil_append, ← hbs] at hall
      exact hall

theorem allocStack_view {sz : Nat} (h : Sound L D X σ) (hd : d ∈ D) (himg : Image σ.mem d sz)
    (hsz : sz < sharedbase) :
    Spec noPanic (allocStack L d sz) σ (fun r σ' => ∀ sz', r = some sz' → sz' < sharedbase ∧
      (∀ a, a / 4096 * 4096 < sz → load σ'.mem d a = load σ.mem d a) ∧
      ∀ a < sz', sz ≤ a / 4096 * 4096 → load σ'.mem d a = some 0) := by
  refine allocStack_steps himg hsz.le fun top htop himg' => ?_
  by_cases hlt : top * 4096 < sharedbase
  · refine ((allocuvm_image (E := noPanic) h hd himg' hlt.le).and
      (allocuvm_view _ h hd himg' hlt)).mono fun r σ₁ hr => ?_
    clear hlt
    obtain ⟨⟨h₁, _, hgrow, _⟩, hview⟩ := hr
    refine ⟨fun _ _ hr => (nomatch hr), fun hz => ?_⟩
    obtain ⟨hmax, hlt₁, hkept, hzero⟩ := hview hz
    obtain ⟨_, hb₁, _⟩ := hgrow hz
    have hr : r = (top + 2) * 4096 := by omega
    have hle : r < 1073741824 := hlt₁
    obtain ⟨w, hw⟩ := Option.ne_none_iff_exists'.mp (hb₁.image.inside top (by omega))
    refine ⟨hr, (clearpteu_view h₁ hd (by omega) hw).mono fun _ σ₂ hsame sz' hr' => ?_⟩
    cases hr'
    refine ⟨hlt₁, fun a ha => ?_, fun a ha hge => ?_⟩
    · rw [hsame a (by unfold sharedbase; omega), hkept a (by omega)]
    · rw [hsame a (by unfold sharedbase; omega), hzero a (by omega) (by omega)]
  · unfold allocuvm
    rw [if_pos (by omega)]
    exact Spec.pure ⟨fun _ _ hr => (nomatch hr), fun hr => absurd rfl hr⟩

/-! ## The image -/

/-- Directory `d` holds the image of `file`, of size `sz` with its stack. -/
structure ImageOf (file : List UInt8) (d sz : Nat) (m : Mem) : Prop where
  size : sz < sharedbase
  inside : ∀ v, v * 4096 < sz → pteAt m d v ≠ none
  above : ∀ v < 524288, sz ≤ v * 4096 → pteAt m d v = none
  bytes : ∀ a < sz, load m d a = imageByte file (segments file) a

/-- Whatever the file holds, loading it ends without a panic; if it succeeds, the image
is what the segments say. -/
theorem execImage_correct (h : Sound L D X σ) (file : Option (List UInt8)) :
    ∃ r σ', execImage L file σ = .ok (r, σ') ∧ ∀ d sz entry, r = some (d, sz, entry) →
      ∃ bs, file = some bs ∧ ImageOf bs d sz σ'.mem := by
  have hspec : Spec noPanic (execImage L file) σ (fun r σ' => ∀ d sz entry,
      r = some (d, sz, entry) → ∃ bs, file = some bs ∧ ImageOf bs d sz σ'.mem) := by
    unfold execImage
    cases file with
    | none => exact Spec.pure fun _ _ _ hr => nomatch hr
    | some file =>
      refine Spec.seq ((execLoad_spec (E := noPanic) (some file) h).and (execLoad_view file h))
        (fun r σ₁ hr => ?_)
      obtain ⟨⟨_, ⟨rfl, _⟩ | ⟨d, sz, entry, rfl, hfree, hdD, h₁, hsz, himg, hhigh⟩⟩, hview⟩ := hr
      · exact Spec.pure fun _ _ _ hr => nomatch hr
      obtain ⟨hlt, hends, hshow⟩ := hview d sz entry rfl
      have hd : d ∈ insert d D := Set.mem_insert d D
      refine Spec.seq ((allocStack_spec h₁ hd himg hsz).and (allocStack_view h₁ hd himg hlt))
        (fun r σ₂ hr => ?_)
      obtain ⟨⟨h₂, _, hsome, _⟩, hstack⟩ := hr
      cases r with
      | none => exact Spec.seq (freevm_spec h₂ hd) fun _ _ _ =>
        Spec.pure fun _ _ _ hr => nomatch hr
      | some sz' =>
        refine Spec.pure fun d' sz'' entry' hr' => ⟨file, rfl, ?_⟩
        cases hr'
        obtain ⟨hb, _, _⟩ := hsome sz' rfl
        obtain ⟨hlt', hkept, hzero⟩ := hstack sz' rfl
        refine ⟨hlt', hb.image.inside, fun v hv hge => ?_, fun a ha => ?_⟩
        · by_cases hlow : v < 262144
          · exact hb.image.above v hlow hge
          · rw [hb.high v (by omega) (by omega), hhigh v (by omega) (by omega)]
            exact kmapPte_user (Ram.data_lt (h.pool_of_free hfree)) hv
        · by_cases hold : a / 4096 * 4096 < sz
          · rw [hkept a hold]
            exact hshow a hold
          · rw [hzero a ha (by omega), imageByte_above fun ph hph => ?_]
            have := hends ph hph
            omega
  exact hspec.total

end

/-- A file that holds an ELF header without segments, loaded right after boot. -/
theorem execImage_correct_emptyElf : ∃ s, Booted smallKernel s ∧
    ∃ r σ', execImage smallKernel (some emptyElf) s.phys = .ok (r, σ') ∧
      ∀ d sz entry, r = some (d, sz, entry) →
        ∃ bs, some emptyElf = some bs ∧ ImageOf bs d sz σ'.mem := by
  obtain ⟨s, hs⟩ := exists_booted (L := smallKernel) (by decide)
  exact ⟨s, hs, execImage_correct hs.fresh.accounted.sound (some emptyElf)⟩

/-! ## Where `exec` runs it -/

section

variable {L : Layout} {s : Sys} {p : Slot}

theorem onPhys_error {α : Type} {c : Kern α} {e : Panic} (h : c s.phys = .error e) :
    onPhys c s = .error e := by
  unfold onPhys
  rw [h]

theorem onPhys_pure {α : Type} (a : α) : onPhys (pure a) = pure a := rfl

theorem onPhys_bind {α β : Type} (c : Kern α) (k : α → Kern β) :
    onPhys (c >>= k) = (onPhys c >>= fun a => onPhys (k a)) := by
  funext s
  cases hc : c s.phys with
  | error e => rw [bind_error (onPhys_error hc), onPhys_error (bind_error hc)]
  | ok r =>
    obtain ⟨a, σ⟩ := r
    rw [bind_ok (onPhys_ok hc)]
    unfold onPhys
    rw [bind_ok hc]
    rfl

theorem execShare_empty {q : Proc} {arg : CString} {args : List CString} {d : Nat} (σ : Phys)
    (h : ∀ e ∈ q.shared.entries, e.size = 0) :
    execShare L q d (arg :: args) σ = .ok ((.done, q.shared.entries), σ) := by
  unfold execShare
  dsimp only
  split
  · unfold accessSharedMemory
    cases he : q.shared.entries with
    | nil => rfl
    | cons e es =>
      unfold accessEntries
      rw [if_pos (h e (by rw [he]; exact List.mem_cons_self))]
      rfl
  · rfl

/-- For a process that shares nothing, `exec` is the loading phase, the pushing of the
arguments and the commit. -/
theorem exec_eq_image (path : CString) (file : Option (List UInt8)) (arg : CString)
    (args : List CString) (h : ∀ e ∈ (s.proc p).shared.entries, e.size = 0) :
    exec L p path file (arg :: args) s = (do
      match ← onPhys (execImage L file) with
      | none => return -1
      | some (pgdir, sz, entry) =>
        match ← onPhys (pushStack pgdir sz (arg :: args)) with
        | none =>
          onPhys (freevm L pgdir)
          return -1
        | some sp =>
          setProc p fun q =>
            { q with
              name := progName path
              pgdir := pgdir
              sz := sz
              tf := { q.tf with eip := entry, esp := sp } }
          onPhys (freevm L (s.proc p).pgdir)
          return 0) s := by
  unfold exec execImage
  rw [onPhys_bind, bind_assoc]
  cases hload : execLoad L file s.phys with
  | error e => rw [bind_error (onPhys_error hload), bind_error (onPhys_error hload)]
  | ok r =>
    obtain ⟨r, σ₁⟩ := r
    rw [bind_ok (onPhys_ok hload), bind_ok (onPhys_ok hload)]
    cases r with
    | none => rfl
    | some t =>
      obtain ⟨d, sz, entry⟩ := t
      have htable : Table.ofEntries (s.proc p).shared (s.proc p).shared.entries
          = (s.proc p).shared := by
        unfold Table.ofEntries
        rw [dif_pos (s.proc p).shared.length_eq]
      have hsame : ((s.withPhys σ₁).withPhys σ₁).withProc p (s.proc p) = s.withPhys σ₁ := by
        show { s with phys := σ₁, proc := Function.update s.proc p (s.proc p) } = _
        rw [Function.update_eq_self]
        rfl
      dsimp only
      rw [bind_ok (get_run _)]
      dsimp only [withPhys_proc]
      rw [bind_ok (onPhys_ok (execShare_empty σ₁ h))]
      dsimp only
      rw [bind_ok (setProc_run p _ _)]
      dsimp only [withPhys_proc]
      rw [htable, hsame, execStack_eq, onPhys_bind, bind_assoc, onPhys_bind, bind_assoc]
      refine congrFun (congrArg (onPhys (allocStack L d sz) >>= ·) (funext fun r => ?_)) _
      cases r with
      | none =>
        dsimp only
        rw [onPhys_pure, pure_bind, onPhys_bind, bind_assoc]
        rfl
      | some sz' =>
        dsimp only
        rw [onPhys_bind, bind_assoc, onPhys_pure, pure_bind]
        refine congrArg (onPhys (pushStack d sz' (arg :: args)) >>= ·) (funext fun r => ?_)
        cases r <;> rfl

end

end Xv6Sharing.Process
