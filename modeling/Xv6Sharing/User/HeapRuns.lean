/-
Xv6Sharing.User.HeapRuns — a program that uses its heap (user/umalloc.c).

The program calls `malloc` and frees what it got, once, and in between it writes
what it likes into the blocks it holds. `Sound` says in terms of the headers and of
the pointers the program holds what the heap looks like after any such run; that it
holds follows from the tiling that each call keeps (`Shape`). `sbrk` may fail at
any call.
-/
import Mathlib.Data.List.Perm.Basic
import Xv6Sharing.Lib.Run
import Xv6Sharing.User.HeapTheorems

namespace Xv6Sharing.User.Umalloc

open Lib

/-! ## Runs -/

/-- The heap, and the pointers from `malloc` that were not freed, with the bytes asked for. -/
structure State where
  heap : Heap
  live : List (Nat × Nat)

/-- More rounds than any loop takes. -/
def rounds : Nat := 2 ^ 31

inductive Act
  | malloc (nbytes : Nat) (grow : Bool)
  | free (p n : Nat)
  | write

/-- The headers that a store into the bytes of a block in use does not reach. -/
def Untouched (live : List (Nat × Nat)) (a : Nat) : Prop :=
  ∀ l ∈ live, a + 8 ≤ l.1 ∨ l.1 + l.2 ≤ a

inductive Step (base : Nat) : State → Act → State → Prop
  | malloc {s : State} {h : Heap} {nbytes p : Nat} {grow : Bool} (hn : nbytes ≤ 2 ^ 30)
      (hrun : malloc base rounds grow nbytes s.heap = some (p, h)) :
      Step base s (.malloc nbytes grow) ⟨h, if p = 0 then s.live else (p, nbytes) :: s.live⟩
  | free {s : State} {h : Heap} {p n : Nat} (hp : (p, n) ∈ s.live)
      (hrun : free rounds p s.heap = some h) : Step base s (.free p n) ⟨h, s.live.erase (p, n)⟩
  | write {s : State} {h : Heap} (hfreep : h.freep = s.heap.freep) (hbrk : h.brk = s.heap.brk)
      (hsame : ∀ a, Untouched s.live a → h.ptr a = s.heap.ptr a ∧ h.size a = s.heap.size a) :
      Step base s .write ⟨h, s.live⟩

/-- The program has not called `malloc`. -/
structure Fresh (start : Nat) (s : State) : Prop where
  freep : s.heap.freep = 0
  brk : s.heap.brk = start
  live : s.live = []

/-- A heap that no call has used, in a process of `brk` bytes. -/
def emptyHeap (brk : Nat) : Heap := ⟨fun _ => 0, fun _ => 0, 0, brk, []⟩

/-- The blocks with their lengths: the free ones, and those that the program holds. -/
def blocks (s : State) (nodes : List Nat) : List (Nat × Nat) :=
  nodes.map (fun a => (a, 8 * s.heap.size a)) ++
    s.live.map fun l => (l.1 - 8, 8 * s.heap.size (l.1 - 8))

/-- The heap after the first call; `nodes` are the free blocks. The list is sorted from `base` on and
leads back to `base` at its end. -/
structure Sound (base start : Nat) (s : State) (nodes : List Nat) : Prop where
  ring : Links s.heap.ptr (base :: nodes) base
  freep : s.heap.freep ∈ base :: nodes
  sorted : (base :: nodes).Pairwise (· < ·)
  joined : ∀ a ∈ nodes, ∀ b ∈ nodes, a + 8 * s.heap.size a ≠ b
  disjoint : (blocks s nodes).Pairwise fun b c => b.1 + b.2 ≤ c.1 ∨ c.1 + c.2 ≤ b.1
  inside : ∀ b ∈ blocks s nodes, 8 ∣ b.1 ∧ start ≤ b.1 ∧ 0 < b.2 ∧ b.1 + b.2 ≤ s.heap.brk
  large : ∀ l ∈ s.live, start + 8 ≤ l.1 ∧ l.2 + 8 ≤ 8 * s.heap.size (l.1 - 8)
  covered : ∀ x, start ≤ x → x < s.heap.brk → ∃ b ∈ blocks s nodes, b.1 ≤ x ∧ x < b.1 + b.2

/-! ## Calls -/

section

variable {base start : Nat} {h : Heap} {ts : List Block} {s : State}

/-- The first call of `malloc` makes an empty list. -/
theorem initBase_shape (hl : Layout base start) (hfreep : h.freep = 0) (hbrk : h.brk = start) :
    Shape base start (initBase base h) [] := by
  rw [initBase, if_pos hfreep]
  exact ⟨hbrk, hbrk.trans_le hl.small, ⟨nofun, nofun⟩, nofun, .nil,
    links_singleton.mpr (Function.update_self ..), Function.update_self .., List.mem_cons_self⟩

/-- `malloc` returns, with a new block or without any. -/
theorem malloc_shape (hl : Layout base start) (hs : Shape base start (initBase base h) ts)
    {nbytes : Nat} (hn : nbytes ≤ 2 ^ 31 - 16) (grow : Bool) :
    ∃ q h' ts', malloc base rounds grow nbytes h = some (q, h') ∧ Shape base start h' ts' ∧
      (q = 0 ∧ lives start ts' = lives start ts ∨
        q ≠ 0 ∧ (lives start ts').Perm ((q, nbytes) :: lives start ts)) ∧
      (h'.asked = h.asked ∨
        h'.asked = h.asked ++ [toInt (max (nunitsFor nbytes) 4096 * 8)]) := by
  have hmod : (nbytes + 7) % 2 ^ 32 = nbytes + 7 := Nat.mod_eq_of_lt (by omega)
  have hunits : nunitsFor nbytes = (nbytes + 7) / 8 + 1 := by rw [nunitsFor, hmod]
  have hasked : (initBase base h).asked = h.asked := by
    unfold initBase
    split <;> rfl
  rw [← hasked]
  exact mallocLoop_total hl hs grow (by omega) (by omega) (by decide) (by decide)

theorem initBase_of_shape (hl : Layout base start) (hs : Shape base start h ts) :
    initBase base h = h := if_neg (freep_ne_zero hl hs)

theorem mem_lives {l : Nat × Nat} : l ∈ lives start ts ↔
    ∃ b ∈ place start ts, b.2.tag = some l.2 ∧ l.1 = b.1 + 8 := by
  rw [lives, List.mem_filterMap]
  constructor
  · rintro ⟨b, hb, htag⟩
    obtain ⟨n, hn, rfl⟩ := Option.map_eq_some_iff.mp htag
    exact ⟨b, hb, hn, rfl⟩
  · rintro ⟨b, hb, htag, hl⟩
    exact ⟨b, hb, by rw [htag, Option.map_some, ← hl]⟩

/-- `free` of a pointer in use returns, and only that block is free afterwards. -/
theorem free_live (hl : Layout base start) (hs : Shape base start h ts) {p n : Nat}
    (hp : (p, n) ∈ lives start ts) : ∃ h' ts', free rounds p h = some h' ∧
      Shape base start h' ts' ∧ (lives start ts).Perm ((p, n) :: lives start ts') := by
  obtain ⟨⟨a, len, tag⟩, hmem, htag, hp⟩ := mem_lives.mp hp
  obtain rfl : tag = some n := htag
  obtain rfl : p = a + 8 := hp
  obtain ⟨us, vs, rfl, ha⟩ := exists_split hmem
  have hshort := length_freeAddrs hl hs
  have hrounds : 2 ^ 30 < rounds := by decide
  obtain ⟨h', ts', hrun, hshape, hlives, -⟩ := free_shape hl hs ha (hshort.trans hrounds)
  have ha : a = start + total us := ha
  refine ⟨h', ts', hrun, hshape, ?_⟩
  rw [hlives, lives_append, lives_cons_live rfl, ← ha]
  exact List.perm_middle

/-- The headers of the blocks, and that of `base`, are not written to. -/
theorem untouched_of_shape (hl : Layout base start) (hs : Shape base start h ts) {a : Nat}
    (ha : a = base ∨ ∃ t, (a, t) ∈ place start ts) : Untouched (lives start ts) a := by
  intro l hmem
  obtain ⟨b, hb, htag, hlb⟩ := mem_lives.mp hmem
  have hroom := hs.sized.room b.2 (tag_mem_of_place hb) l.2 htag
  have hle := le_of_mem_place hb
  rcases ha with rfl | ⟨t, ht⟩
  · have hbelow := hl.below
    omega
  · obtain ⟨⟨m, hm⟩, hpos⟩ := hs.sized.lens t (tag_mem_of_place ht)
    have hsym : (place start ts).Pairwise fun b c => b.1 + b.2.len ≤ c.1 := pairwise_place start ts
    by_cases heq : b = (a, t)
    · subst heq
      omega
    · have hcases : b.1 + b.2.len ≤ a ∨ a + t.len ≤ b.1 := by
        obtain ⟨us, vs, hsplit⟩ := List.append_of_mem hb
        rw [hsplit, List.pairwise_append, List.pairwise_cons] at hsym
        rw [hsplit, List.mem_append, List.mem_cons] at ht
        rcases ht with ht | ht | ht
        · exact .inr (hsym.2.2 _ ht b List.mem_cons_self)
        · exact absurd ht.symm heq
        · exact .inl (hsym.2.1.1 _ ht)
      omega

theorem shape_write (hl : Layout base start) (hs : Shape base start h ts) {h' : Heap}
    (hfreep : h'.freep = h.freep) (hbrk : h'.brk = h.brk)
    (hsame : ∀ a, Untouched (lives start ts) a → h'.ptr a = h.ptr a ∧ h'.size a = h.size a) :
    Shape base start h' ts := by
  have hheader : ∀ a, (a = base ∨ ∃ t, (a, t) ∈ place start ts) →
      h'.ptr a = h.ptr a ∧ h'.size a = h.size a :=
    fun a ha => hsame a (untouched_of_shape hl hs ha)
  refine ⟨hbrk.trans hs.brk, hbrk.trans_le hs.small, hs.sized, fun b hb => ?_, hs.apart, ?_, ?_, ?_⟩
  · rw [(hheader b.1 (.inr ⟨b.2, hb⟩)).2]
    exact hs.sizes b hb
  · refine hs.ring.congr fun x hx => (hheader x ?_).1
    exact (List.mem_cons.mp hx).imp_right fun hx => (mem_addrs.mp hx).imp fun _ ht => ht.1
  · exact (hheader base (.inl rfl)).2.trans hs.baseSize
  · rw [hfreep]
    exact hs.freep

/-! ## The heap of a run -/

/-- The heap before the first call, or a tiling whose blocks in use are those the program holds. -/
def Held (base start : Nat) (s : State) : Prop :=
  Fresh start s ∨ ∃ ts, Shape base start s.heap ts ∧ s.live.Perm (lives start ts)

/-- In both cases `malloc` starts from a tiling. -/
theorem Held.initBase (hl : Layout base start) (hs : Held base start s) :
    ∃ ts, Shape base start (initBase base s.heap) ts ∧ s.live.Perm (lives start ts) := by
  rcases hs with hfresh | ⟨ts, hshape, hlive⟩
  · exact ⟨[], initBase_shape hl hfresh.freep hfresh.brk, by rw [hfresh.live]; exact .nil⟩
  · exact ⟨ts, (initBase_of_shape hl hshape).symm ▸ hshape, hlive⟩

theorem held_step (hl : Layout base start) {s' : State} {a : Act} (hs : Held base start s)
    (hstep : Step base s a s') : Held base start s' := by
  cases hstep with
  | @malloc h nbytes p grow hn hrun =>
    obtain ⟨ts, hshape, hlive⟩ := hs.initBase hl
    obtain ⟨q, h', ts', hrun', hshape', hlives, -⟩ :=
      malloc_shape hl hshape (by omega : nbytes ≤ 2 ^ 31 - 16) grow
    rw [hrun] at hrun'
    cases hrun'
    refine .inr ⟨ts', hshape', ?_⟩
    rcases hlives with ⟨rfl, hlives⟩ | ⟨hne, hlives⟩
    · rw [hlives]
      exact hlive
    · show (if p = 0 then s.live else (p, nbytes) :: s.live).Perm _
      rw [if_neg hne]
      exact (hlive.cons _).trans hlives.symm
  | @free h p n hp hrun =>
    rcases hs with hfresh | ⟨ts, hshape, hlive⟩
    · rw [hfresh.live] at hp
      cases hp
    · obtain ⟨h', ts', hrun', hshape', hlives⟩ := free_live hl hshape (hlive.mem_iff.mp hp)
      rw [hrun] at hrun'
      cases hrun'
      refine .inr ⟨ts', hshape', ?_⟩
      have herase := (hlive.trans hlives).erase (p, n)
      rwa [List.erase_cons_head] at herase
  | write hfreep hbrk hsame =>
    rcases hs with hfresh | ⟨ts, hshape, hlive⟩
    · exact .inl ⟨hfreep.trans hfresh.freep, hbrk.trans hfresh.brk, hfresh.live⟩
    · refine .inr ⟨ts, shape_write hl hshape hfreep hbrk fun a ha => hsame a ?_, hlive⟩
      exact fun l hmem => ha l (hlive.mem_iff.mp hmem)

theorem blocks_perm (hsizes : ∀ b ∈ place start ts, 8 * h.size b.1 = b.2.len) :
    (blocks ⟨h, lives start ts⟩ (freeAddrs start ts)).Perm
      ((place start ts).map fun b => (b.1, b.2.len)) := by
  unfold blocks
  induction ts generalizing start with
  | nil => exact .nil
  | cons t ts ih =>
    obtain ⟨hsize, hsizes⟩ := List.forall_mem_cons.mp hsizes
    have hsize : 8 * h.size start = t.len := hsize
    obtain ⟨len, tag⟩ := t
    cases tag with
    | none =>
      rw [freeAddrs, addrs_cons_of_pos rfl, lives_cons_free rfl, List.map_cons, List.cons_append,
        place, List.map_cons, hsize]
      exact (ih hsizes).cons _
    | some n =>
      rw [freeAddrs, addrs_cons_of_neg rfl, lives_cons_live rfl, List.map_cons, place,
        List.map_cons, Nat.add_sub_cancel, hsize]
      exact List.perm_middle.trans ((ih hsizes).cons _)

/-- No free block ends where another one starts. -/
theorem joined_of_shape (hs : Shape base start h ts) : ∀ a ∈ freeAddrs start ts,
    ∀ b ∈ freeAddrs start ts, a + 8 * h.size a ≠ b := by
  intro a ha b hb heq
  obtain ⟨t, ht, htf⟩ := mem_addrs.mp ha
  have hsize : 8 * h.size a = t.len := hs.sizes _ ht
  obtain ⟨us, vs, rfl, haddr⟩ := exists_split ht
  have haddr : a = start + total us := haddr
  obtain ⟨hsizedL, hsizedR⟩ := sized_append.mp hs.sized
  have hpos := hsizedR.pos
  have hlen : 0 < t.len := hpos t List.mem_cons_self
  have hb : b ∈ freeAddrs start (us ++ t :: vs) := hb
  rw [freeAddrs, addrs_append, addrs_cons_of_pos htf, List.mem_append, List.mem_cons] at hb
  rcases hb with hb | hb | hb
  · have hlt := lt_of_mem_addrs hsizedL.pos hb
    omega
  · omega
  · cases vs with
    | nil => cases hb
    | cons v vs =>
      cases hv : isFree v with
      | true => exact (isChain_split.mp hs.apart).2.2.2 v rfl ⟨htf, hv⟩
      | false =>
        rw [addrs_cons_of_neg hv] at hb
        have hle := le_of_mem_addrs hb
        have hlen := hpos v (List.mem_cons_of_mem _ List.mem_cons_self)
        omega

theorem sound_of_shape (hl : Layout base start) (hs : Shape base start s.heap ts)
    (hlive : s.live.Perm (lives start ts)) : Sound base start s (freeAddrs start ts) := by
  have hperm : (blocks s (freeAddrs start ts)).Perm
      ((place start ts).map fun b => (b.1, b.2.len)) :=
    ((hlive.map _).append_left _).trans (blocks_perm hs.sizes)
  refine ⟨hs.ring, hs.freep, sorted_nodes hl hs.sized, joined_of_shape hs, ?_, fun b hb => ?_,
    fun l hmem => ?_, fun x hle hlt => ?_⟩
  · refine (hperm.pairwise_iff fun h => h.symm).mpr (List.pairwise_map.mpr ?_)
    exact (pairwise_place start ts).imp .inl
  · obtain ⟨c, hc, rfl⟩ := List.mem_map.mp (hperm.mem_iff.mp hb)
    have hle := le_of_mem_place hc
    have hbrk := hs.brk
    exact ⟨dvd_of_mem_place hl.aligned (fun t ht => (hs.sized.lens t ht).1) hc, hle.1,
      hs.sized.pos c.2 (tag_mem_of_place hc), by omega⟩
  · obtain ⟨b, hb, htag, hp⟩ := mem_lives.mp (hlive.mem_iff.mp hmem)
    have hle := le_of_mem_place hb
    rw [hp, Nat.add_sub_cancel, hs.sizes b hb]
    exact ⟨by omega, hs.sized.room b.2 (tag_mem_of_place hb) l.2 htag⟩
  · obtain ⟨b, hb, hin⟩ := exists_mem_place hle (hs.brk ▸ hlt)
    exact ⟨(b.1, b.2.len), hperm.mem_iff.mpr (List.mem_map_of_mem hb), hin⟩

/-- In every state of every run the heap is sound, and the calls that the program may make return. -/
theorem heap_sound (hl : Layout base start)
    (hrun : Reach (Fresh start) (Step base) (fun _ _ => True) s) :
    (Fresh start s ∨ ∃ nodes, Sound base start s nodes) ∧
      (∀ nbytes ≤ 2 ^ 30, ∀ grow, ∃ q h, malloc base rounds grow nbytes s.heap = some (q, h)) ∧
      ∀ l ∈ s.live, ∃ h, free rounds l.1 s.heap = some h := by
  have hheld : Held base start s :=
    hrun.invariant (fun _ hfresh => .inl hfresh) fun _ _ _ hs _ hstep => held_step hl hs hstep
  refine ⟨?_, fun nbytes hn grow => ?_, fun l hmem => ?_⟩
  · rcases hheld with hfresh | ⟨ts, hshape, hlive⟩
    · exact .inl hfresh
    · exact .inr ⟨freeAddrs start ts, sound_of_shape hl hshape hlive⟩
  · obtain ⟨ts, hshape, -⟩ := hheld.initBase hl
    obtain ⟨q, h, -, hmalloc, -⟩ := malloc_shape hl hshape (by omega : nbytes ≤ 2 ^ 31 - 16) grow
    exact ⟨q, h, hmalloc⟩
  · rcases hheld with hfresh | ⟨ts, hshape, hlive⟩
    · rw [hfresh.live] at hmem
      cases hmem
    · obtain ⟨h, -, hfree, -⟩ := free_live hl hshape (hlive.mem_iff.mp hmem)
      exact ⟨h, hfree⟩

/-- After a first call for 100 bytes, in a process of three pages. -/
theorem heap_sound_first : ∃ s, s.live = [(44952, 100)] ∧
    (Fresh 12288 s ∨ ∃ nodes, Sound 8192 12288 s nodes) ∧
      (∀ nbytes ≤ 2 ^ 30, ∀ grow, ∃ q h, malloc 8192 rounds grow nbytes s.heap = some (q, h)) ∧
      ∀ l ∈ s.live, ∃ h, free rounds l.1 s.heap = some h := by
  have hfirst : (malloc 8192 rounds true 100 (emptyHeap 12288)).map Prod.fst
      = some 44952 := by decide +kernel
  obtain ⟨⟨q, h⟩, hmalloc, rfl⟩ := Option.map_eq_some_iff.mp hfirst
  have hreach : Reach (Fresh 12288) (Step 8192) (fun _ _ => True) _ :=
    .next (.base ⟨rfl, rfl, rfl⟩) trivial (.malloc (s := ⟨emptyHeap 12288, []⟩) (by decide) hmalloc)
  have hlayout : Layout 8192 12288 := ⟨by decide, by decide, by decide, by decide⟩
  rw [if_neg (by decide)] at hreach
  exact ⟨_, rfl, heap_sound hlayout hreach⟩

theorem free_of_lives_nil {t : Block} (h : lives start (t :: ts) = []) :
    isFree t = true ∧ lives (start + t.len) ts = [] := by
  cases htag : t.tag with
  | none =>
    have ht : isFree t = true := Option.isNone_iff_eq_none.mpr htag
    exact ⟨ht, lives_cons_free ht ▸ h⟩
  | some n =>
    rw [lives_cons_live htag] at h
    cases h

/-- A program that has freed all it got has its whole heap as one free block. -/
theorem all_freed_one_block (hl : Layout base start)
    (hrun : Reach (Fresh start) (Step base) (fun _ _ => True) s) (hlive : s.live = [])
    (hgrown : start < s.heap.brk) : s.heap.ptr base = start ∧ s.heap.ptr start = base ∧
      start + 8 * s.heap.size start = s.heap.brk := by
  have hheld : Held base start s :=
    hrun.invariant (fun _ hfresh => .inl hfresh) fun _ _ _ hs _ hstep => held_step hl hs hstep
  obtain hfresh | ⟨ts, hs, hperm⟩ := hheld
  · exact absurd hfresh.brk hgrown.ne'
  have hnil : lives start ts = [] := List.nil_perm.mp (hlive ▸ hperm)
  have hbrk := hs.brk
  cases ts with
  | nil => exact absurd hbrk hgrown.ne'
  | cons t ts =>
    obtain ⟨ht, hnil⟩ := free_of_lives_nil hnil
    cases ts with
    | nil =>
      have hring := hs.ring
      rw [freeAddrs, addrs_cons_of_pos ht] at hring
      have hsize : 8 * s.heap.size start = t.len := hs.sizes (start, t) List.mem_cons_self
      exact ⟨hring.1, hring.2.1, hsize ▸ hbrk.symm⟩
    | cons u us =>
      -- neighbours that are both free would have been joined
      exact absurd ⟨ht, (free_of_lives_nil hnil).1⟩ (List.isChain_cons_cons.mp hs.apart).1

theorem all_freed_one_block_once : ∃ s : State, s.live = [] ∧ s.heap.ptr 8192 = 12288 ∧
    12288 + 8 * s.heap.size 12288 = s.heap.brk := by
  have hruns : ((malloc 8192 rounds true 100 (emptyHeap 12288)).bind fun r =>
      (free rounds r.1 r.2).map fun h => (r.1, h.brk)) = some (44952, 45056) := by decide +kernel
  obtain ⟨⟨p, h⟩, hmalloc, hfree⟩ := Option.bind_eq_some_iff.mp hruns
  obtain ⟨h', hfree, heq⟩ := Option.map_eq_some_iff.mp hfree
  obtain ⟨rfl, hbrk⟩ := Prod.mk.inj heq
  have h1 : Reach (Fresh 12288) (Step 8192) (fun _ _ => True) _ :=
    .next (.base ⟨rfl, rfl, rfl⟩) trivial (.malloc (s := ⟨emptyHeap 12288, []⟩) (by decide) hmalloc)
  have h2 := h1.next trivial (.free List.mem_cons_self hfree)
  obtain ⟨hbase, -, hend⟩ := all_freed_one_block ⟨by decide, by decide, by decide, by decide⟩ h2
    (by simp) (by simp [hbrk])
  exact ⟨_, by simp, hbase, hend⟩

end

end Xv6Sharing.User.Umalloc
