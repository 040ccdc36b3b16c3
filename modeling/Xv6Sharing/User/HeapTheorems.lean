/-
Xv6Sharing.User.HeapTheorems — the blocks of the user heap (user/umalloc.c).

The memory from `start` to `brk` is a tiling: every block, free or in use, is a tile,
and no two free tiles stand side by side. `Shape` says how the headers represent the
tiling: each size field holds the length of its tile, and the free tiles are linked in
the order of their addresses, in a ring with `base`. `free` marks a tile and joins it
to free neighbours, `malloc` marks a free tile or cuts its end off, and `morecore`
adds a tile at the end; `free_shape`, `take_shape` and `malloc_shape` say so.
-/
import Mathlib.Data.List.Chain
import Xv6Sharing.Lib.Tiling
import Xv6Sharing.User.Heap

namespace Xv6Sharing.User.Umalloc

open Lib

/-! ## Tilings of the heap -/

/-- A block in use carries the number of bytes that was asked for. -/
abbrev Block := Tile (Option Nat)

def isFree (t : Block) : Bool := t.tag.isNone

abbrev freeAddrs (a : Nat) (ts : List Block) : List Nat := addrs isFree a ts

/-- The blocks in use: the pointer that `malloc` returned and the number of bytes. -/
def lives (a : Nat) (ts : List Block) : List (Nat × Nat) :=
  (place a ts).filterMap fun b => b.2.tag.map fun n => (b.1 + 8, n)

/-- Not both are free. -/
def Apart (s t : Block) : Prop := ¬ (isFree s = true ∧ isFree t = true)

/-- Where the program has its `base`, and where its heap starts. -/
structure Layout (base start : Nat) : Prop where
  pos : 0 < base
  below : base + 8 ≤ start
  aligned : 8 ∣ start
  small : start ≤ 2 ^ 30

/-- The lengths of tiles, and the room in those that are in use. -/
structure Sized (ts : List Block) : Prop where
  lens : ∀ t ∈ ts, 8 ∣ t.len ∧ 0 < t.len
  room : ∀ t ∈ ts, ∀ n ∈ t.tag, n + 8 ≤ t.len

structure Shape (base start : Nat) (h : Heap) (ts : List Block) : Prop where
  brk : h.brk = start + total ts
  small : h.brk ≤ 2 ^ 30
  sized : Sized ts
  sizes : ∀ b ∈ place start ts, 8 * h.size b.1 = b.2.len
  apart : ts.IsChain Apart
  ring : Links h.ptr (base :: freeAddrs start ts) base
  baseSize : h.size base = 0
  freep : h.freep ∈ base :: freeAddrs start ts

section

variable {base start a : Nat} {h : Heap} {ts us vs : List Block} {t : Block} {n : Nat}

theorem lives_append : lives a (ts ++ us) = lives a ts ++ lives (a + total ts) us := by
  rw [lives, place_append, List.filterMap_append, lives, lives]

theorem lives_cons_free (h : isFree t = true) : lives a (t :: ts) = lives (a + t.len) ts := by
  have htag : t.tag = none := Option.isNone_iff_eq_none.mp h
  rw [lives, place, List.filterMap_cons_none (by rw [htag]; rfl), lives]

theorem lives_cons_live (h : t.tag = some n) :
    lives a (t :: ts) = (a + 8, n) :: lives (a + t.len) ts := by
  rw [lives, place, List.filterMap_cons_some (b := (a + 8, n)) (by rw [h]; rfl), lives]

theorem apart_left {s : Block} (h : isFree s = false) : Apart s t := fun hboth => by
  rw [h] at hboth
  cases hboth.1

theorem apart_right {s : Block} (h : isFree t = false) : Apart s t := fun hboth => by
  rw [h] at hboth
  cases hboth.2

theorem isChain_split : (us ++ t :: vs).IsChain Apart ↔ us.IsChain Apart ∧ vs.IsChain Apart ∧
    (∀ s ∈ us.getLast?, Apart s t) ∧ ∀ s ∈ vs.head?, Apart t s := by
  rw [List.isChain_append, List.isChain_cons]
  constructor
  · rintro ⟨hleft, ⟨hnext, hright⟩, hlast⟩
    exact ⟨hleft, hright, fun s hs => hlast s hs t rfl, hnext⟩
  · rintro ⟨hleft, hright, hlast, hnext⟩
    refine ⟨hleft, ⟨hnext, hright⟩, fun s hs t' ht' => ?_⟩
    cases ht'
    exact hlast s hs

theorem Sized.pos (hs : Sized ts) : ∀ t ∈ ts, 0 < t.len := fun t ht => (hs.lens t ht).2

theorem sized_append : Sized (ts ++ us) ↔ Sized ts ∧ Sized us := by
  constructor
  · rintro ⟨hlens, hroom⟩
    obtain ⟨hlens₁, hlens₂⟩ := List.forall_mem_append.mp hlens
    obtain ⟨hroom₁, hroom₂⟩ := List.forall_mem_append.mp hroom
    exact ⟨⟨hlens₁, hroom₁⟩, ⟨hlens₂, hroom₂⟩⟩
  · rintro ⟨⟨hlens₁, hroom₁⟩, ⟨hlens₂, hroom₂⟩⟩
    exact ⟨List.forall_mem_append.mpr ⟨hlens₁, hlens₂⟩, List.forall_mem_append.mpr ⟨hroom₁, hroom₂⟩⟩

theorem tag_none {len : Nat} : ∀ n ∈ (none : Option Nat), n + 8 ≤ len :=
  fun _ hn => absurd hn (Option.not_mem_none _)

theorem sized_cons : Sized (t :: ts) ↔
    (8 ∣ t.len ∧ 0 < t.len) ∧ (∀ n ∈ t.tag, n + 8 ≤ t.len) ∧ Sized ts := by
  constructor
  · rintro ⟨hlens, hroom⟩
    obtain ⟨hlen, hlens⟩ := List.forall_mem_cons.mp hlens
    obtain ⟨ht, hroom⟩ := List.forall_mem_cons.mp hroom
    exact ⟨hlen, ht, ⟨hlens, hroom⟩⟩
  · rintro ⟨hlen, ht, hlens, hroom⟩
    exact ⟨List.forall_mem_cons.mpr ⟨hlen, hlens⟩, List.forall_mem_cons.mpr ⟨ht, hroom⟩⟩

theorem sorted_nodes (hl : Layout base start) (hs : Sized ts) :
    (base :: freeAddrs start ts).Pairwise (· < ·) := by
  refine List.pairwise_cons.mpr ⟨fun x hx => ?_, pairwise_addrs hs.pos start⟩
  have hbelow := hl.below
  have hle := le_of_mem_addrs hx
  omega

/-- A free tile starts right at the start of a tiling. -/
theorem headD_freeAddrs (hpos : ∀ t ∈ ts, 0 < t.len) {z : Nat} (hz : z < a) :
    (freeAddrs a ts).headD z = a ↔ ∃ t us, ts = t :: us ∧ isFree t = true := by
  cases ts with
  | nil =>
    refine ⟨fun heq => ?_, fun ⟨t, us, hnil, _⟩ => by cases hnil⟩
    exact absurd (show z = a from heq) hz.ne
  | cons t ts =>
    cases ht : isFree t with
    | true =>
      rw [freeAddrs, addrs_cons_of_pos ht]
      exact ⟨fun _ => ⟨t, ts, rfl, ht⟩, fun _ => rfl⟩
    | false =>
      rw [freeAddrs, addrs_cons_of_neg ht]
      refine ⟨fun heq => ?_, fun ⟨t', us, heq, ht'⟩ => ?_⟩
      · have hlen := hpos t List.mem_cons_self
        cases hlist : addrs isFree (a + t.len) ts with
        | nil =>
          rw [hlist] at heq
          exact absurd (show z = a from heq) hz.ne
        | cons x xs =>
          rw [hlist] at heq
          have hle : a + t.len ≤ x := le_of_mem_addrs (hlist ▸ List.mem_cons_self)
          have heq : x = a := heq
          omega
      · cases heq
        rw [ht] at ht'
        cases ht'

/-! ## The place for a block -/

theorem placeFor_iff {bp p : Nat} : placeFor h bp p = true ↔
    (p < bp ∧ bp < h.ptr p) ∨ (h.ptr p ≤ p ∧ (p < bp ∨ bp < h.ptr p)) := by
  simp only [placeFor, Bool.or_eq_true, Bool.and_eq_true, decide_eq_true_eq, gt_iff_lt, ge_iff_le]

/-- The loop of `free` finds the last node below the block. -/
theorem search_place {bp p : Nat} {xs behind before : List Nat}
    (hsplit : base :: xs = before ++ p :: behind) (hring : Links h.ptr (base :: xs) base)
    (hsorted : (base :: xs).Pairwise (· < ·)) (hbelow : ∀ x ∈ before ++ [p], x < bp)
    (habove : ∀ x ∈ behind, bp < x) (hfreep : h.freep ∈ base :: xs) {k : Nat} (hk : xs.length < k) :
    search h.ptr (placeFor h bp) k h.freep = some p := by
  have hp : p ∈ base :: xs := by
    rw [hsplit]
    exact List.mem_append_right _ List.mem_cons_self
  have hbase : base < bp := by
    cases before with
    | nil =>
      obtain ⟨rfl, -⟩ := List.cons.inj hsplit
      exact hbelow _ List.mem_cons_self
    | cons x before =>
      obtain ⟨rfl, -⟩ := List.cons.inj hsplit
      exact hbelow _ List.mem_cons_self
  have hlinks := hring
  rw [hsplit, links_append] at hlinks
  obtain ⟨hleft, hnext, hright⟩ := hlinks
  rw [hsplit, List.pairwise_append, List.pairwise_cons] at hsorted
  obtain ⟨hsortedL, ⟨hpbehind, hsortedR⟩, hcross⟩ := hsorted
  have hplt : p < bp := hbelow p (List.mem_append_right _ List.mem_cons_self)
  refine search_ring hring hfreep hp (placeFor_iff.mpr ?_) (fun y hy hstop => ?_) hk
  · cases behind with
    | nil =>
      have hnext : h.ptr p = base := hnext
      refine .inr ⟨?_, .inl hplt⟩
      rw [hnext]
      cases before with
      | nil =>
        obtain ⟨rfl, -⟩ := List.cons.inj hsplit
        exact le_rfl
      | cons x before =>
        obtain ⟨rfl, -⟩ := List.cons.inj hsplit
        exact (hcross _ List.mem_cons_self p List.mem_cons_self).le
    | cons c behind =>
      have hnext : h.ptr p = c := hnext
      exact .inl ⟨hplt, hnext ▸ habove c List.mem_cons_self⟩
  · rw [placeFor_iff] at hstop
    rw [hsplit, List.mem_append, List.mem_cons] at hy
    rcases hy with hy | rfl | hy
    · -- the next node is still below the block
      have hylt := hbelow y (List.mem_append_left _ hy)
      have hstep : y < h.ptr y ∧ h.ptr y < bp := by
        rcases hleft.next_cases hsortedL hy with hend | ⟨hmem, hlt⟩
        · rw [hend]
          exact ⟨hcross y hy p List.mem_cons_self, hplt⟩
        · exact ⟨hlt, hbelow _ (List.mem_append_left _ hmem)⟩
      omega
    · rfl
    · -- the node is above the block, and so is the next one unless that is `base`
      have hygt := habove y hy
      rcases hright.next_cases hsortedR hy with hend | ⟨hmem, hlt⟩
      · rw [hend] at hstop
        omega
      · have hgt := habove _ hmem
        omega

/-! ## Joining blocks -/

/-- A free block of `len` bytes between the tiles `us` and `vs` that points to the next free block,
but that no node points to; `p` is the last node before it. -/
structure Loose (base start : Nat) (h : Heap) (us : List Block) (len : Nat) (vs : List Block)
    (before : List Nat) (p : Nat) : Prop where
  split : base :: freeAddrs start us = before ++ [p]
  brk : h.brk = start + (total us + (len + total vs))
  small : h.brk ≤ 2 ^ 30
  sizedLeft : Sized us
  sizedRight : Sized vs
  length : 8 ∣ len ∧ 0 < len
  sizesLeft : ∀ b ∈ place start us, 8 * h.size b.1 = b.2.len
  size : 8 * h.size (start + total us) = len
  sizesRight : ∀ b ∈ place (start + total us + len) vs, 8 * h.size b.1 = b.2.len
  apartLeft : us.IsChain Apart
  apartRight : vs.IsChain Apart
  next : ∀ t ∈ vs.head?, isFree t = false
  left : Links h.ptr before p
  ptr : h.ptr (start + total us) = (freeAddrs (start + total us + len) vs).headD base
  right : Links h.ptr (freeAddrs (start + total us + len) vs) base
  baseSize : h.size base = 0

section

variable {bp p len : Nat} {before : List Nat} {b : Nat × Block}

theorem addr_lt_of_mem (hpos : ∀ t ∈ us, 0 < t.len) (hb : b ∈ place start us) :
    b.1 < start + total us := by
  have hle := (le_of_mem_place hb).2
  have hlen := hpos b.2 (tag_mem_of_place hb)
  omega

/-- The nodes before a block lie below it. -/
theorem node_lt (hl : Layout base start) (hpos : ∀ t ∈ us, 0 < t.len)
    (hsplit : base :: freeAddrs start us = before ++ [p]) : ∀ x ∈ before ++ [p], x < start + total us := by
  intro x hx
  rw [← hsplit] at hx
  rcases List.mem_cons.mp hx with rfl | hx
  · have hbelow := hl.below
    omega
  · exact lt_of_mem_addrs hpos hx

theorem joinNext_loose (hl : Layout base start)
    (hs : Shape base start h (us ++ ⟨len, some n⟩ :: vs)) (hbp : bp = start + total us)
    (hsplit : base :: freeAddrs start us = before ++ [p])
    (hp : h.ptr p = (freeAddrs (bp + len) vs).headD base) (hleft : Links h.ptr before p)
    (hright : Links h.ptr (freeAddrs (bp + len) vs) base) :
    ∃ len' vs', Loose base start (joinNext h bp p) us len' vs' before p ∧ len ≤ len' ∧
      lives (bp + len') vs' = lives (bp + len) vs := by
  obtain ⟨hsizedL, hsizedR⟩ := sized_append.mp hs.sized
  obtain ⟨hlen, -, hsizedR⟩ := sized_cons.mp hsizedR
  obtain ⟨hsizesL, hsize, hsizesR⟩ := forall_place_split.mp hs.sizes
  have hlen : 8 ∣ len ∧ 0 < len := hlen
  have hsize : 8 * h.size bp = len := hbp ▸ hsize
  have hsizesR : ∀ b ∈ place (bp + len) vs, 8 * h.size b.1 = b.2.len := hbp ▸ hsizesR
  obtain ⟨hapartL, hapartR, -, -⟩ := isChain_split.mp hs.apart
  have hbelow := hl.below
  have hne : base ≠ bp := by omega
  have hbase : base < bp + len := by omega
  have hfresh : bp ∉ before := fun hmem =>
    absurd (node_lt hl hsizedL.pos hsplit bp (List.mem_append_left _ hmem)) (by omega)
  have hnext := headD_freeAddrs hsizedR.pos hbase
  have hbrk : h.brk = start + (total us + (len + total vs)) := by
    rw [hs.brk, total_append, total]
  rw [joinNext, hp, hsize]
  by_cases hjoin : ∃ t vs', vs = t :: vs' ∧ isFree t = true
  · -- the next tile is free: it becomes part of the block
    obtain ⟨t, vs, rfl, ht⟩ := hjoin
    obtain ⟨hlen', -, hsizedR⟩ := sized_cons.mp hsizedR
    obtain ⟨hjoint, hapartR⟩ := List.isChain_cons.mp hapartR
    obtain ⟨hsize', hsizesR⟩ := List.forall_mem_cons.mp hsizesR
    have haddrs : freeAddrs (bp + len) (t :: vs) = (bp + len) :: freeAddrs (bp + len + t.len) vs :=
      addrs_cons_of_pos ht
    rw [haddrs] at hright hp ⊢
    have hp : h.ptr p = bp + len := hp
    obtain ⟨hptr, hright⟩ := hright
    rw [List.headD_cons, if_pos rfl]
    refine ⟨len + t.len, vs, ⟨hsplit, ?_, hs.small, hsizedL, hsizedR, ?_, ?_, ?_, ?_, hapartL, hapartR,
      ?_, hleft.update hfresh _, ?_, ?_, ?_⟩, Nat.le_add_right _ _, ?_⟩
    · rw [total] at hbrk
      exact hbrk.trans (by omega)
    · exact ⟨Nat.dvd_add hlen.1 hlen'.1, by omega⟩
    · intro b hb
      have hlt := addr_lt_of_mem hsizedL.pos hb
      refine Eq.trans (congrArg (8 * ·) (Function.update_of_ne ?_ ..)) (hsizesL b hb)
      omega
    · rw [← hbp]
      refine Eq.trans (congrArg (8 * ·) (Function.update_self ..)) ?_
      have hsize' : 8 * h.size (bp + len) = t.len := hsize'
      omega
    · intro b hb
      rw [← hbp, ← Nat.add_assoc] at hb
      have hle := (le_of_mem_place hb).1
      refine Eq.trans (congrArg (8 * ·) (Function.update_of_ne ?_ ..)) (hsizesR b hb)
      omega
    · intro t' ht'
      have hapart := hjoint t' ht'
      exact Bool.eq_false_iff.mpr fun hfree => hapart ⟨ht, hfree⟩
    · rw [← hbp, ← Nat.add_assoc]
      exact (Function.update_self ..).trans ((congrArg h.ptr hp).trans hptr)
    · rw [← hbp, ← Nat.add_assoc]
      refine hright.update (fun hmem => ?_) _
      have hle := le_of_mem_addrs hmem
      omega
    · exact (Function.update_of_ne hne ..).trans hs.baseSize
    · rw [← Nat.add_assoc, lives_cons_free ht]
  · rw [if_neg fun heq => hjoin (hnext.mp heq.symm)]
    refine ⟨len, vs, ⟨hsplit, hbrk, hs.small, hsizedL, hsizedR, hlen, hsizesL, hbp ▸ hsize, hbp ▸ hsizesR,
      hapartL, hapartR, ?_, hleft.update hfresh _, ?_, ?_, hs.baseSize⟩, le_rfl, rfl⟩
    · intro t ht
      cases htf : isFree t with
      | false => rfl
      | true =>
        obtain ⟨vs', rfl⟩ := List.head?_eq_some_iff.mp ht
        exact absurd ⟨t, vs', rfl, htf⟩ hjoin
    · rw [← hbp]
      exact Function.update_self ..
    · rw [← hbp]
      refine hright.update (fun hmem => ?_) _
      have hle := le_of_mem_addrs hmem
      omega

/-- The last tile is free, or the last node before the block ends before it. -/
theorem last_cases (hl : Layout base start) (hsized : Sized us) (hbase : h.size base = 0)
    (hsizes : ∀ b ∈ place start us, 8 * h.size b.1 = b.2.len)
    (hsplit : base :: freeAddrs start us = before ++ [p]) :
    (∃ us' t, us = us' ++ [t] ∧ isFree t = true ∧ p = start + total us' ∧
      before = base :: freeAddrs start us' ∧ p + 8 * h.size p = start + total us) ∨
    (∀ t ∈ us.getLast?, isFree t = false) ∧ p + 8 * h.size p ≠ start + total us := by
  have hbelow := hl.below
  rcases List.eq_nil_or_concat' us with rfl | ⟨us', t, rfl⟩
  · -- only `base` is before the block
    have hsplit : [] ++ [base] = before ++ [p] := hsplit
    obtain rfl : base = p := (List.cons.inj (List.append_inj' hsplit rfl).2).1
    refine .inr ⟨nofun, ?_⟩
    rw [hbase]
    omega
  · have hlast := (sized_append.mp hsized).2.pos t List.mem_cons_self
    have htotal : total (us' ++ [t]) = total us' + t.len := by rw [total_append, total, total]; rfl
    cases ht : isFree t with
    | true =>
      have haddrs : freeAddrs start (us' ++ [t]) = freeAddrs start us' ++ [start + total us'] := by
        rw [freeAddrs, addrs_append, addrs_cons_of_pos ht]
        rfl
      rw [haddrs, ← List.cons_append] at hsplit
      obtain ⟨rfl, hp⟩ := List.append_inj' hsplit rfl
      obtain rfl : start + total us' = p := (List.cons.inj hp).1
      have hsize : 8 * h.size (start + total us') = t.len := (forall_place_split.mp hsizes).2.1
      exact .inl ⟨us', t, rfl, ht, rfl, rfl, by omega⟩
    | false =>
      refine .inr ⟨fun t' ht' => ?_, ?_⟩
      · rw [List.getLast?_append, List.getLast?_singleton, Option.some_or] at ht'
        cases ht'
        exact ht
      · have haddrs : freeAddrs start (us' ++ [t]) = freeAddrs start us' := by
          rw [freeAddrs, addrs_append, addrs_cons_of_neg ht]
          exact List.append_nil _
        have hp : p ∈ base :: freeAddrs start us' := by
          rw [← haddrs, hsplit]
          exact List.mem_append_right _ List.mem_cons_self
        rcases List.mem_cons.mp hp with rfl | hp
        · rw [hbase]
          omega
        · obtain ⟨t', ht', -⟩ := mem_addrs.mp hp
          have hsize : 8 * h.size p = t'.len := (forall_place_split.mp hsizes).1 _ ht'
          have hle : p + t'.len ≤ start + total us' := (le_of_mem_place ht').2
          omega

theorem joinPrev_shape (hl : Layout base start) {vs : List Block}
    (hs : Loose base start h us len vs before p) (hbp : bp = start + total us) :
    ∃ ts', Shape base start { joinPrev h bp p with freep := p } ts' ∧
      lives start ts' = lives start us ++ lives (bp + len) vs ∧
      ∃ t ∈ ts', isFree t = true ∧ len ≤ t.len := by
  have hbelow := hl.below
  have hnode := node_lt hl hs.sizedLeft.pos hs.split
  have hsize : 8 * h.size bp = len := hbp ▸ hs.size
  have hptr : h.ptr bp = (freeAddrs (bp + len) vs).headD base := hbp ▸ hs.ptr
  have hright : Links h.ptr (freeAddrs (bp + len) vs) base := hbp ▸ hs.right
  have hsizesR : ∀ b ∈ place (bp + len) vs, 8 * h.size b.1 = b.2.len := hbp ▸ hs.sizesRight
  have hplt : p < bp := hbp ▸ hnode p (List.mem_append_right _ List.mem_cons_self)
  have hbehind : p ∉ freeAddrs (bp + len) vs := fun hmem => by
    have hle := le_of_mem_addrs hmem
    omega
  have hfresh : p ∉ before := fun hmem => by
    have hsorted := sorted_nodes hl hs.sizedLeft
    rw [hs.split, List.pairwise_append] at hsorted
    exact lt_irrefl p (hsorted.2.2 p hmem p List.mem_cons_self)
  rcases last_cases hl hs.sizedLeft hs.baseSize hs.sizesLeft hs.split with
    ⟨us, t, rfl, ht, hp, hbefore, hjoin⟩ | ⟨hlive, hjoin⟩
  · -- the tile before the block is free: the block becomes part of it
    obtain ⟨hsizedL, hsizedT⟩ := sized_append.mp hs.sizedLeft
    obtain ⟨hlenT, -, -⟩ := sized_cons.mp hsizedT
    obtain ⟨hsizesL, hsizeT, -⟩ := forall_place_split.mp hs.sizesLeft
    obtain ⟨hapartL, -, hjoint, -⟩ := isChain_split.mp hs.apartLeft
    have htotal : total (us ++ [t]) = total us + t.len := by rw [total_append, total, total]; rfl
    have hsizeT : 8 * h.size p = t.len := hp ▸ hsizeT
    have hend : p + (t.len + len) = bp + len := by omega
    rw [joinPrev, if_pos (hjoin.trans hbp.symm)]
    refine ⟨us ++ ⟨t.len + len, none⟩ :: vs, ⟨?_, hs.small, ?_, ?_, ?_, ?_, ?_, ?_⟩, ?_, ?_⟩
    · refine hs.brk.trans ?_
      rw [htotal, total_append, total]
      dsimp only
      omega
    · refine sized_append.mpr ⟨hsizedL, sized_cons.mpr ⟨?_, tag_none, hs.sizedRight⟩⟩
      exact ⟨Nat.dvd_add hlenT.1 hs.length.1, Nat.add_pos_left hlenT.2 len⟩
    · refine forall_place_split.mpr ⟨fun b hb => ?_, ?_, fun b hb => ?_⟩
      · have hlt := addr_lt_of_mem hsizedL.pos hb
        refine Eq.trans (congrArg (8 * ·) (Function.update_of_ne ?_ ..)) (hsizesL b hb)
        omega
      · rw [← hp]
        refine Eq.trans (congrArg (8 * ·) (Function.update_self ..)) ?_
        show 8 * (h.size p + h.size bp) = t.len + len
        omega
      · rw [← hp, hend] at hb
        have hle := (le_of_mem_place hb).1
        refine Eq.trans (congrArg (8 * ·) (Function.update_of_ne ?_ ..)) (hsizesR b hb)
        omega
    · refine isChain_split.mpr ⟨hapartL, hs.apartRight, fun x hx hboth => ?_, fun y hy =>
        apart_right (hs.next y hy)⟩
      exact hjoint x hx ⟨hboth.1, ht⟩
    · have haddrs : base :: freeAddrs start (us ++ ⟨t.len + len, none⟩ :: vs)
          = before ++ p :: freeAddrs (bp + len) vs := by
        rw [freeAddrs, addrs_append, addrs_cons_of_pos rfl, ← hp, hend, hbefore, List.cons_append]
      rw [haddrs, links_append]
      refine ⟨hs.left.update hfresh _, (Function.update_self ..).trans hptr, hright.update hbehind _⟩
    · refine (Function.update_of_ne ?_ ..).trans hs.baseSize
      omega
    · rw [freeAddrs, addrs_append, addrs_cons_of_pos rfl, ← hp]
      exact List.mem_cons_of_mem _ (List.mem_append_right _ List.mem_cons_self)
    · rw [lives_append, lives_cons_free rfl, lives_append, lives_cons_free ht, ← hp, hend]
      rw [show lives (p + t.len) [] = [] from rfl, List.append_nil]
    · exact ⟨⟨t.len + len, none⟩, List.mem_append_right _ List.mem_cons_self, rfl,
        Nat.le_add_left _ _⟩
  · rw [joinPrev, if_neg (hbp ▸ hjoin)]
    refine ⟨us ++ ⟨len, none⟩ :: vs, ⟨?_, hs.small, ?_, ?_, ?_, ?_, hs.baseSize, ?_⟩, ?_, ?_⟩
    · exact hs.brk.trans (by rw [total_append, total])
    · exact sized_append.mpr ⟨hs.sizedLeft, sized_cons.mpr ⟨hs.length, tag_none, hs.sizedRight⟩⟩
    · exact forall_place_split.mpr ⟨hs.sizesLeft, hs.size, hs.sizesRight⟩
    · exact isChain_split.mpr ⟨hs.apartLeft, hs.apartRight, fun x hx => apart_left (hlive x hx),
        fun y hy => apart_right (hs.next y hy)⟩
    · have haddrs : base :: freeAddrs start (us ++ ⟨len, none⟩ :: vs)
          = before ++ p :: bp :: freeAddrs (bp + len) vs := by
        rw [freeAddrs, addrs_append, addrs_cons_of_pos rfl, ← hbp, ← List.cons_append, hs.split,
          List.append_assoc, List.singleton_append]
      rw [haddrs, links_append]
      refine ⟨hs.left.update hfresh _, Function.update_self .., ?_, hright.update hbehind _⟩
      exact (Function.update_of_ne hplt.ne' ..).trans hptr
    · rw [freeAddrs, addrs_append, ← List.cons_append, hs.split]
      exact List.mem_append_left _ (List.mem_append_right _ List.mem_cons_self)
    · rw [lives_append, lives_cons_free rfl, hbp]
    · exact ⟨⟨len, none⟩, List.mem_append_right _ List.mem_cons_self, rfl, le_rfl⟩

theorem nodes_split (base start : Nat) (us : List Block) (t : Block) (vs : List Block) :
    ∃ before p, base :: freeAddrs start us = before ++ [p] ∧
      base :: freeAddrs start (us ++ t :: vs)
        = before ++ p :: freeAddrs (start + total us) (t :: vs) := by
  rcases List.eq_nil_or_concat' (base :: freeAddrs start us) with hnil | ⟨before, p, hsplit⟩
  · cases hnil
  · refine ⟨before, p, hsplit, ?_⟩
    rw [freeAddrs, addrs_append, ← List.cons_append, hsplit, List.append_assoc,
      List.singleton_append]

theorem free_shape (hl : Layout base start)
    (hs : Shape base start h (us ++ ⟨len, some n⟩ :: vs)) (hbp : bp = start + total us) {k : Nat}
    (hk : (freeAddrs start (us ++ ⟨len, some n⟩ :: vs)).length < k) :
    ∃ h' ts', free k (bp + 8) h = some h' ∧ Shape base start h' ts' ∧
      lives start ts' = lives start us ++ lives (bp + len) vs ∧
      ∃ t ∈ ts', isFree t = true ∧ len ≤ t.len := by
  obtain ⟨before, p, hbefore, hsplit⟩ := nodes_split base start us ⟨len, some n⟩ vs
  have hlive : freeAddrs (start + total us) (⟨len, some n⟩ :: vs) = freeAddrs (bp + len) vs := by
    rw [freeAddrs, addrs_cons_of_neg rfl, hbp]
  rw [hlive] at hsplit
  obtain ⟨hsizedL, hsizedR⟩ := sized_append.mp hs.sized
  obtain ⟨hlen, -, -⟩ := sized_cons.mp hsizedR
  have hlen : 8 ∣ len ∧ 0 < len := hlen
  have hbelow : ∀ x ∈ before ++ [p], x < bp := hbp ▸ node_lt hl hsizedL.pos hbefore
  have habove : ∀ x ∈ freeAddrs (bp + len) vs, bp < x := fun x hx => by
    have hle := le_of_mem_addrs hx
    omega
  have hsearch := search_place hsplit hs.ring (sorted_nodes hl hs.sized) hbelow habove hs.freep hk
  have hring := hs.ring
  rw [hsplit, links_append] at hring
  obtain ⟨hleft, hp, hright⟩ := hring
  obtain ⟨len', vs', hloose, hle, hlives⟩ := joinNext_loose hl hs hbp hbefore hp hleft hright
  obtain ⟨ts', hshape, hlives', t, ht, hfree, hlong⟩ := joinPrev_shape hl hloose hbp
  refine ⟨_, ts', ?_, hshape, ?_, t, ht, hfree, hle.trans hlong⟩
  · have hap : bp + 8 - 8 = bp := Nat.add_sub_cancel ..
    rw [free, hap, hsearch]
    rfl
  · rw [hlives', hlives]

/-! ## Taking a block -/

/-- A free block that is large enough is taken whole, or its end is cut off. -/
theorem take_shape (hl : Layout base start) (hs : Shape base start h (us ++ ⟨len, none⟩ :: vs))
    (hp : p = start + total us) {prevp nunits : Nat}
    (hprev : prevp ∈ base :: freeAddrs start (us ++ ⟨len, none⟩ :: vs)) (hnext : h.ptr prevp = p)
    (hfit : nunits ≤ h.size p) (hn : n + 8 ≤ 8 * nunits) :
    ∃ q h' ts', take nunits prevp p h = (q, h') ∧ q ≠ 0 ∧ Shape base start h' ts' ∧
      lives start ts' = lives start us ++ (q, n) :: lives (p + len) vs := by
  obtain ⟨hsizedL, hsizedR⟩ := sized_append.mp hs.sized
  obtain ⟨hlen, -, hsizedR⟩ := sized_cons.mp hsizedR
  have hlen : 8 ∣ len ∧ 0 < len := hlen
  obtain ⟨hsizesL, hsize, hsizesR⟩ := forall_place_split.mp hs.sizes
  have hsize : 8 * h.size p = len := hp ▸ hsize
  have hsizesR : ∀ b ∈ place (p + len) vs, 8 * h.size b.1 = b.2.len := hp ▸ hsizesR
  obtain ⟨hapartL, hapartR, hlast, -⟩ := isChain_split.mp hs.apart
  have hbelow := hl.below
  unfold take
  by_cases hexact : h.size p = nunits
  · rw [if_pos hexact]
    obtain ⟨before, pp, hbefore, hsplit⟩ := nodes_split base start us ⟨len, none⟩ vs
    have hfree : freeAddrs (start + total us) (⟨len, none⟩ :: vs) = p :: freeAddrs (p + len) vs := by
      rw [freeAddrs, addrs_cons_of_pos rfl, hp]
    rw [hfree] at hsplit
    have hring := hs.ring
    have hsorted := sorted_nodes hl hs.sized
    rw [hsplit] at hsorted
    have hring' := hring
    rw [hsplit, links_append] at hring
    obtain ⟨hleft, hpp, hpnext, hright⟩ := hring
    -- the node that was seen before `p` is the one before it in the list
    obtain rfl : prevp = pp := by
      have hmem : pp ∈ base :: freeAddrs start (us ++ ⟨len, none⟩ :: vs) := by
        rw [hsplit]
        exact List.mem_append_right _ List.mem_cons_self
      refine hring'.next_inj (hsplit ▸ hsorted.imp Nat.ne_of_lt) hprev hmem ?_
      rw [hnext, hpp]
      rfl
    have hsorted := List.pairwise_append.mp hsorted
    have hfresh : prevp ∉ before := fun hmem =>
      lt_irrefl prevp (hsorted.2.2 prevp hmem prevp List.mem_cons_self)
    have hbehind : prevp ∉ freeAddrs (p + len) vs := fun hmem =>
      lt_irrefl prevp ((List.pairwise_cons.mp hsorted.2.1).1 prevp (List.mem_cons_of_mem _ hmem))
    have haddrs : base :: freeAddrs start (us ++ ⟨len, some n⟩ :: vs)
        = before ++ prevp :: freeAddrs (p + len) vs := by
      rw [freeAddrs, addrs_append, addrs_cons_of_neg rfl, ← hp, ← List.cons_append, hbefore,
        List.append_assoc, List.singleton_append]
    refine ⟨p + 8, _, us ++ ⟨len, some n⟩ :: vs, rfl, by omega, ⟨?_, hs.small, ?_, ?_, ?_, ?_,
      hs.baseSize, ?_⟩, ?_⟩
    · exact hs.brk.trans (by rw [total_append, total_append, total, total])
    · refine sized_append.mpr ⟨hsizedL, sized_cons.mpr ⟨hlen, ?_, hsizedR⟩⟩
      rintro m ⟨⟩
      show n + 8 ≤ len
      omega
    · exact forall_place_split.mpr ⟨hsizesL, hp ▸ hsize, hp ▸ hsizesR⟩
    · exact isChain_split.mpr ⟨hapartL, hapartR, fun _ _ => apart_right rfl, fun _ _ => apart_left rfl⟩
    · rw [haddrs, links_append]
      exact ⟨hleft.update hfresh _, (Function.update_self ..).trans hpnext, hright.update hbehind _⟩
    · rw [haddrs]
      exact List.mem_append_right _ List.mem_cons_self
    · rw [lives_append, lives_cons_live rfl, hp]
  · rw [if_neg hexact]
    have hsz : 8 * (h.size p - nunits) + 8 * nunits = len := by omega
    have hq : (h.setSize p (h.size p - nunits)).size p = h.size p - nunits := Function.update_self ..
    have hqp : p + 8 * (h.size p - nunits) ≠ p := by omega
    have hend : p + 8 * (h.size p - nunits) + 8 * nunits = p + len := by omega
    -- neither store is to the header of another tile, or to `base`
    have hother : ∀ x, x < p ∨ p + len ≤ x →
        ((h.setSize p (h.size p - nunits)).setSize (p + 8 * (h.size p - nunits)) nunits).size x
          = h.size x := by
      intro x hx
      refine (Function.update_of_ne ?_ ..).trans (Function.update_of_ne ?_ ..) <;> omega
    have haddrs : freeAddrs start
        (us ++ ⟨8 * (h.size p - nunits), none⟩ :: ⟨8 * nunits, some n⟩ :: vs)
        = freeAddrs start (us ++ ⟨len, none⟩ :: vs) := by
      rw [freeAddrs, addrs_append, addrs_cons_of_pos rfl, addrs_cons_of_neg rfl, ← hp, hend,
        freeAddrs, addrs_append, addrs_cons_of_pos rfl, ← hp]
    dsimp only
    rw [hq]
    refine ⟨_, _, us ++ ⟨8 * (h.size p - nunits), none⟩ :: ⟨8 * nunits, some n⟩ :: vs, rfl, by omega,
      ⟨?_, hs.small, ?_, ?_, ?_, ?_, ?_, ?_⟩, ?_⟩
    · refine hs.brk.trans ?_
      rw [total_append, total, total_append, total, total]
      dsimp only
      omega
    · refine sized_append.mpr ⟨hsizedL, sized_cons.mpr ⟨⟨Nat.dvd_mul_right .., ?_⟩, tag_none,
        sized_cons.mpr ⟨⟨Nat.dvd_mul_right .., ?_⟩, ?_, hsizedR⟩⟩⟩
      · show 0 < 8 * (h.size p - nunits)
        omega
      · show 0 < 8 * nunits
        omega
      · rintro m ⟨⟩
        exact hn
    · refine forall_place_split.mpr ⟨fun b hb => ?_, ?_, List.forall_mem_cons.mpr ⟨?_, fun b hb => ?_⟩⟩
      · have hlt := addr_lt_of_mem hsizedL.pos hb
        exact (congrArg (8 * ·) (hother b.1 (by omega))).trans (hsizesL b hb)
      · rw [← hp]
        exact congrArg (8 * ·) ((Function.update_of_ne (Ne.symm hqp) ..).trans hq)
      · rw [← hp]
        exact congrArg (8 * ·) (Function.update_self ..)
      · rw [← hp, hend] at hb
        have hle := (le_of_mem_place hb).1
        exact (congrArg (8 * ·) (hother b.1 (by omega))).trans (hsizesR b hb)
    · refine isChain_split.mpr ⟨hapartL, List.isChain_cons.mpr ⟨fun _ _ => apart_left rfl, hapartR⟩,
        hlast, fun s hs => ?_⟩
      cases hs
      exact apart_right rfl
    · rw [haddrs]
      exact hs.ring
    · exact (hother base (by omega)).trans hs.baseSize
    · rw [haddrs]
      exact hprev
    · rw [lives_append, lives_cons_free rfl, lives_cons_live rfl, ← hp, hend]

theorem take_node (hl : Layout base start) (hs : Shape base start h ts) {prevp nunits : Nat}
    (hq : p ∈ freeAddrs start ts) (hprev : prevp ∈ base :: freeAddrs start ts)
    (hnext : h.ptr prevp = p) (hfit : nunits ≤ h.size p) (hn : n + 8 ≤ 8 * nunits) :
    ∃ q h' ts', take nunits prevp p h = (q, h') ∧ q ≠ 0 ∧ Shape base start h' ts' ∧
      (lives start ts').Perm ((q, n) :: lives start ts) := by
  obtain ⟨⟨len, tag⟩, ht, hfree⟩ := mem_addrs.mp hq
  obtain rfl : tag = none := Option.isNone_iff_eq_none.mp hfree
  obtain ⟨us, vs, rfl, hp⟩ := exists_split ht
  obtain ⟨q, h', ts', htake, hne, hshape, hlives⟩ := take_shape hl hs hp hprev hnext hfit hn
  refine ⟨q, h', ts', htake, hne, hshape, ?_⟩
  have hp : p = start + total us := hp
  rw [hlives, lives_append, lives_cons_free rfl, ← hp]
  exact List.perm_middle

/-! ## What sbrk was asked -/

theorem free_asked {k : Nat} {h' : Heap} (hrun : free k p h = some h') : h'.asked = h.asked := by
  obtain ⟨q, -, hq⟩ := Option.bind_eq_some_iff.mp hrun
  cases hq
  have hnext : (joinNext h (p - 8) q).asked = h.asked := by
    unfold joinNext
    split <;> rfl
  rw [← hnext]
  show (joinPrev (joinNext h (p - 8) q) (p - 8) q).asked = _
  generalize joinNext h (p - 8) q = h'
  unfold joinPrev
  split <;> rfl

theorem take_asked {nunits prevp : Nat} : (take nunits prevp p h).2.asked = h.asked := by
  unfold take
  split <;> rfl

theorem sbrk_asked {grow : Bool} {x : Int} : (sbrk grow x h).2.asked = h.asked ++ [x] := by
  unfold sbrk
  dsimp only
  split_ifs <;> rfl

theorem morecore_asked {k nu q : Nat} {grow : Bool} {h' : Heap}
    (hrun : morecore k grow nu h = some (q, h')) :
    h'.asked = h.asked ++ [toInt (max nu 4096 * 8)] := by
  have hmax : (if nu < 4096 then 4096 else nu) = max nu 4096 := by
    by_cases hlt : nu < 4096
    · rw [if_pos hlt, Nat.max_eq_right hlt.le]
    · rw [if_neg hlt, Nat.max_eq_left (not_lt.mp hlt)]
  rw [morecore, hmax] at hrun
  have hasked := @sbrk_asked h grow (toInt (max nu 4096 * 8))
  generalize sbrk grow (toInt (max nu 4096 * 8)) h = r at hrun hasked
  obtain ⟨_ | hp, h₁⟩ := r
  · cases hrun
    exact hasked
  · dsimp only at hrun
    split_ifs at hrun
    obtain ⟨h₂, hfree, hpure⟩ := Option.bind_eq_some_iff.mp hrun
    cases hpure
    exact (free_asked hfree).trans hasked

/-- Whatever the list looks like, a call only adds to the arguments of `sbrk`. -/
theorem mallocLoop_asked {k m nunits prevp q : Nat} {grow : Bool} {h' : Heap}
    (hrun : mallocLoop m grow nunits k prevp p h = some (q, h')) : h.asked <+: h'.asked := by
  induction k generalizing prevp p h with
  | zero => cases hrun
  | succ k ih =>
    rw [mallocLoop] at hrun
    split_ifs at hrun
    · have htake : (take nunits prevp p h).2 = h' := congrArg Prod.snd (Option.some.inj hrun)
      have hasked : h'.asked = h.asked := by rw [← htake, take_asked]
      exact hasked ▸ List.prefix_rfl
    · obtain ⟨⟨r, h₁⟩, hmore, hrest⟩ := Option.bind_eq_some_iff.mp hrun
      have hadds : h.asked <+: h₁.asked := by
        rw [morecore_asked hmore]
        exact List.prefix_append ..
      dsimp only at hrest
      split_ifs at hrest
      · cases hrest
        exact hadds
      · exact hadds.trans (ih hrest)
    · exact ih hrun

/-! ## More memory -/

theorem length_freeAddrs (hl : Layout base start) (hs : Shape base start h ts) :
    (freeAddrs start ts).length < 2 ^ 30 := by
  have hlen : (freeAddrs start ts).length ≤ ts.length := length_addrs_le
  have htotal := length_le_total hs.sized.pos
  have hbrk := hs.brk
  have hsmall := hs.small
  have hpos := hl.below
  omega

theorem toInt_of_lt {x : Nat} (hx : x < 2 ^ 31) : toInt x = x := by
  have hmod : x % 2 ^ 32 = x := Nat.mod_eq_of_lt (by omega)
  rw [toInt, hmod, if_pos hx]

/-- Memory that is asked for comes at the end of the heap, or not at all. -/
theorem sbrk_pos (h : Heap) (grow : Bool) {x : Nat} (hpos : 0 < x) :
    sbrk grow x h = (none, { h with asked := h.asked ++ [(x : Int)] }) ∨
    h.brk + x < 2 ^ 30 ∧
      sbrk grow x h = (some h.brk, { h with asked := h.asked ++ [(x : Int)], brk := h.brk + x }) := by
  have hgt : (x : Int) > 0 := Int.natCast_pos.mpr hpos
  simp only [sbrk, if_pos hgt, Int.toNat_natCast, Bool.and_eq_true, decide_eq_true_eq]
  by_cases hgrow : grow = true ∧ h.brk + x < 2 ^ 30
  · rw [if_pos hgrow]
    exact .inr ⟨hgrow.2, rfl⟩
  · rw [if_neg hgrow]
    exact .inl rfl

theorem shape_append (hl : Layout base start) (hs : Shape base start h ts) {nu : Nat}
    (asked : List Int) (hnu : 0 < nu) (hsmall : h.brk + 8 * nu ≤ 2 ^ 30) :
    Shape base start (Heap.setSize { h with asked := asked, brk := h.brk + 8 * nu } h.brk nu)
      (ts ++ [⟨8 * nu, some 0⟩]) := by
  have hbelow := hl.below
  have hbrk := hs.brk
  have haddrs : freeAddrs start (ts ++ [⟨8 * nu, some 0⟩]) = freeAddrs start ts := by
    rw [freeAddrs, addrs_append, addrs_cons_of_neg rfl]
    exact List.append_nil _
  refine ⟨?_, hsmall, ?_, ?_, ?_, ?_, ?_, ?_⟩
  · show h.brk + 8 * nu = _
    rw [total_append, total, total, hbrk, Nat.add_zero, Nat.add_assoc]
  · refine sized_append.mpr ⟨hs.sized, sized_cons.mpr ⟨⟨Nat.dvd_mul_right .., ?_⟩, ?_, ?_⟩⟩
    · exact Nat.mul_pos (by decide) hnu
    · rintro m ⟨⟩
      show 0 + 8 ≤ 8 * nu
      omega
    · exact ⟨List.forall_mem_nil _, List.forall_mem_nil _⟩
  · refine forall_place_split.mpr ⟨fun b hb => ?_, ?_, List.forall_mem_nil _⟩
    · have hlt := addr_lt_of_mem hs.sized.pos hb
      refine Eq.trans (congrArg (8 * ·) (Function.update_of_ne ?_ ..)) (hs.sizes b hb)
      omega
    · rw [← hbrk]
      exact congrArg (8 * ·) (Function.update_self ..)
  · exact isChain_split.mpr ⟨hs.apart, .nil, fun _ _ => apart_right rfl,
      fun _ hy => absurd hy (Option.not_mem_none _)⟩
  · rw [haddrs]
    exact hs.ring
  · refine (Function.update_of_ne ?_ ..).trans hs.baseSize
    omega
  · rw [haddrs]
    exact hs.freep

/-- The memory that `morecore` asks for is one free block of the list afterwards, unless there is
none. -/
theorem morecore_shape (hl : Layout base start) (hs : Shape base start h ts) {k nu : Nat}
    (hk : 2 ^ 30 ≤ k) (grow : Bool) (hnu : 8 * nu < 2 ^ 31) :
    ∃ h' ts', (morecore k grow nu h = some (0, h') ∨
        morecore k grow nu h = some (h'.freep, h') ∧ ∃ t ∈ ts', isFree t = true ∧ 8 * nu ≤ t.len) ∧
      Shape base start h' ts' ∧ lives start ts' = lives start ts := by
  have hle : nu ≤ if nu < 4096 then 4096 else nu := by split_ifs <;> omega
  have hlt : 8 * (if nu < 4096 then 4096 else nu) < 2 ^ 31 := by split_ifs <;> omega
  have hpos : 0 < if nu < 4096 then 4096 else nu := by split_ifs <;> omega
  rw [morecore]
  generalize (if nu < 4096 then 4096 else nu) = m at *
  rw [Nat.mul_comm m, toInt_of_lt hlt]
  rcases sbrk_pos h grow (by omega : 0 < 8 * m) with hfail | ⟨hroom, hgot⟩
  · rw [hfail]
    exact ⟨{ h with asked := _ }, ts, .inl rfl, ⟨hs.brk, hs.small, hs.sized, hs.sizes, hs.apart, hs.ring,
      hs.baseSize, hs.freep⟩, rfl⟩
  · rw [hgot]
    have happ := shape_append hl hs (h.asked ++ [((8 * m : Nat) : Int)]) hpos hroom.le
    obtain ⟨h', ts', hfree, hshape, hlives, t, ht, hfreeT, hlen⟩ :=
      free_shape hl happ hs.brk ((length_freeAddrs hl happ).trans_le hk)
    have hpage : ¬ h.brk + 8 > pgroundup (h.brk + 8 * m) := by
      unfold pgroundup
      omega
    refine ⟨h', ts', .inr ⟨?_, t, ht, hfreeT, by omega⟩, hshape, ?_⟩
    · dsimp only
      rw [if_neg hpage, hfree]
      rfl
    · rw [hlives]
      exact List.append_nil _

/-! ## malloc -/

/-- One round through the list: a block that fits is taken, or `morecore` is asked. -/
theorem mallocLoop_pass {xs : List Nat} {prevp k : Nat} (m nunits : Nat) (grow : Bool)
    (hlinks : Links h.ptr xs h.freep) (hfresh : h.freep ∉ xs)
    (hprev : h.ptr prevp = xs.headD h.freep) (hk : xs.length < k) :
    (∃ pp q, pp ∈ prevp :: xs ∧ q ∈ h.freep :: xs ∧ h.ptr pp = q ∧ nunits ≤ h.size q ∧
      mallocLoop m grow nunits k prevp (h.ptr prevp) h = some (take nunits pp q h)) ∨
    (∀ q ∈ h.freep :: xs, h.size q < nunits) ∧
      mallocLoop m grow nunits k prevp (h.ptr prevp) h
        = (morecore m grow nunits h).bind fun r =>
          if r.1 = 0 then some (0, r.2)
          else mallocLoop m grow nunits (k - xs.length - 1) r.1 (r.2.ptr r.1) r.2 := by
  induction xs generalizing prevp k with
  | nil =>
    obtain ⟨k, rfl⟩ : ∃ j, k = j + 1 := ⟨k - 1, by omega⟩
    have hprev : h.ptr prevp = h.freep := hprev
    rw [mallocLoop, hprev]
    by_cases hfit : h.size h.freep ≥ nunits
    · exact .inl ⟨prevp, h.freep, List.mem_cons_self, List.mem_cons_self, hprev, hfit, if_pos hfit⟩
    · rw [if_neg hfit, if_pos rfl]
      refine .inr ⟨fun q hq => ?_, rfl⟩
      obtain rfl := List.mem_singleton.mp hq
      exact not_le.mp hfit
  | cons x xs ih =>
    obtain ⟨k, rfl⟩ : ∃ j, k = j + 1 := ⟨k - 1, by omega⟩
    have hprev : h.ptr prevp = x := hprev
    obtain ⟨hx, hxs⟩ := not_or.mp (List.mem_cons.not.mp hfresh)
    rw [mallocLoop, hprev]
    by_cases hfit : h.size x ≥ nunits
    · exact .inl ⟨prevp, x, List.mem_cons_self, List.mem_cons_of_mem _ List.mem_cons_self, hprev, hfit,
        if_pos hfit⟩
    · rw [if_neg hfit, if_neg (Ne.symm hx)]
      rw [List.length_cons] at hk
      rcases ih hlinks.2 hxs hlinks.1 (by omega : xs.length < k) with
        ⟨pp, q, hpp, hq, hnext, hsize, hrun⟩ | ⟨hsmall, hrun⟩
      · refine .inl ⟨pp, q, List.mem_cons_of_mem _ hpp, ?_, hnext, hsize, hrun⟩
        rcases List.mem_cons.mp hq with rfl | hq
        · exact List.mem_cons_self
        · exact List.mem_cons_of_mem _ (List.mem_cons_of_mem _ hq)
      · refine .inr ⟨fun q hq => ?_, ?_⟩
        · rcases List.mem_cons.mp hq with rfl | hq
          · exact hsmall _ List.mem_cons_self
          · rcases List.mem_cons.mp hq with rfl | hq
            · exact not_le.mp hfit
            · exact hsmall _ (List.mem_cons_of_mem _ hq)
        · have hrounds : k + 1 - (x :: xs).length - 1 = k - xs.length - 1 := by
            rw [List.length_cons]
            omega
          rw [hrun, hrounds]

theorem mallocLoop_shape (hl : Layout base start) (hs : Shape base start h ts) {nunits k : Nat}
    (m : Nat) (grow : Bool) (hn : n + 8 ≤ 8 * nunits) (hk : 2 ^ 30 ≤ k) :
    (∃ q h' ts', mallocLoop m grow nunits k h.freep (h.ptr h.freep) h = some (q, h') ∧ q ≠ 0 ∧
      Shape base start h' ts' ∧ (lives start ts').Perm ((q, n) :: lives start ts) ∧
      h'.asked = h.asked) ∨
    (∀ t ∈ ts, isFree t = true → t.len < 8 * nunits) ∧ ∃ j < 2 ^ 30,
      mallocLoop m grow nunits k h.freep (h.ptr h.freep) h
        = (morecore m grow nunits h).bind fun r =>
          if r.1 = 0 then some (0, r.2)
          else mallocLoop m grow nunits (k - j - 1) r.1 (r.2.ptr r.1) r.2 := by
  obtain ⟨ys, hlinks, hperm⟩ := hs.ring.from_node hs.freep
  have hnodup : (h.freep :: ys).Nodup :=
    hperm.nodup_iff.mpr ((sorted_nodes hl hs.sized).imp Nat.ne_of_lt)
  have hlen : ys.length = (freeAddrs start ts).length := Nat.succ.inj hperm.length_eq
  have hshort := length_freeAddrs hl hs
  rcases mallocLoop_pass m nunits grow hlinks.2 (List.nodup_cons.mp hnodup).1 hlinks.1 (by omega : ys.length < k) with
    ⟨pp, q, hpp, hq, hnext, hfit, hrun⟩ | ⟨hsmall, hrun⟩
  · -- `base` is empty, so that the block is another one
    have hq' : q ∈ freeAddrs start ts := by
      refine (List.mem_cons.mp (hperm.mem_iff.mp hq)).resolve_left fun heq => ?_
      have hbase := hs.baseSize
      rw [← heq] at hbase
      omega
    obtain ⟨r, h', ts', htake, hne, hshape, hlives⟩ := take_node hl hs hq' (hperm.mem_iff.mp hpp) hnext hfit hn
    have hasked : (take nunits pp q h).2.asked = h.asked := take_asked
    rw [htake] at hasked hrun
    exact .inl ⟨r, h', ts', hrun, hne, hshape, hlives, hasked⟩
  · refine .inr ⟨fun t ht hfree => ?_, ys.length, by omega, hrun⟩
    obtain ⟨us, vs, rfl⟩ := List.append_of_mem ht
    have hsize : 8 * h.size (start + total us) = t.len := (forall_place_split.mp hs.sizes).2.1
    have hmem : start + total us ∈ freeAddrs start (us ++ t :: vs) := by
      rw [freeAddrs, addrs_append, addrs_cons_of_pos hfree]
      exact List.mem_append_right _ List.mem_cons_self
    have hlt := hsmall _ (hperm.mem_iff.mpr (List.mem_cons_of_mem _ hmem))
    omega

theorem freep_ne_zero (hl : Layout base start) (hs : Shape base start h ts) : h.freep ≠ 0 := by
  have hpos := hl.pos
  have hbelow := hl.below
  rcases List.mem_cons.mp hs.freep with heq | hmem
  · omega
  · have hle := le_of_mem_addrs hmem
    omega

/-- The loop of `malloc` ends, with a block or without memory. -/
theorem mallocLoop_total (hl : Layout base start) (hs : Shape base start h ts) {nunits k m : Nat}
    (grow : Bool) (hn : n + 8 ≤ 8 * nunits) (hlt : 8 * nunits < 2 ^ 31) (hk : 2 ^ 31 ≤ k)
    (hm : 2 ^ 30 ≤ m) :
    ∃ q h' ts', mallocLoop m grow nunits k h.freep (h.ptr h.freep) h = some (q, h') ∧
      Shape base start h' ts' ∧
      (q = 0 ∧ lives start ts' = lives start ts ∨
        q ≠ 0 ∧ (lives start ts').Perm ((q, n) :: lives start ts)) ∧
      (h'.asked = h.asked ∨ h'.asked = h.asked ++ [toInt (max nunits 4096 * 8)]) := by
  rcases mallocLoop_shape hl hs m grow hn (by omega : 2 ^ 30 ≤ k) with
    ⟨q, h', ts', hrun, hne, hshape, hlives, hasked⟩ | ⟨-, j, hj, hrun⟩
  · exact ⟨q, h', ts', hrun, hshape, .inr ⟨hne, hlives⟩, .inl hasked⟩
  · rw [hrun]
    obtain ⟨h₁, ts₁, hmore, hshape₁, hlives₁⟩ := morecore_shape hl hs hm grow hlt
    rcases hmore with hfail | ⟨hmore, t, ht, hfree, hlong⟩
    · have hasked₁ := morecore_asked hfail
      rw [hfail]
      exact ⟨0, h₁, ts₁, rfl, hshape₁, .inl ⟨rfl, hlives₁⟩, .inr hasked₁⟩
    · -- the second round meets the new block at the latest
      have hasked₁ := morecore_asked hmore
      have hbind : ((morecore m grow nunits h).bind fun r =>
          if r.1 = 0 then some (0, r.2)
          else mallocLoop m grow nunits (k - j - 1) r.1 (r.2.ptr r.1) r.2)
          = mallocLoop m grow nunits (k - j - 1) h₁.freep (h₁.ptr h₁.freep) h₁ := by
        rw [hmore, Option.bind_some, if_neg (freep_ne_zero hl hshape₁)]
      rw [hbind]
      rcases mallocLoop_shape hl hshape₁ m grow hn (by omega : 2 ^ 30 ≤ k - j - 1) with
        ⟨q, h', ts', hrun, hne, hshape, hlives, hasked⟩ | ⟨hnone, -⟩
      · exact ⟨q, h', ts', hrun, hshape, .inr ⟨hne, hlives₁ ▸ hlives⟩, .inr (hasked.trans hasked₁)⟩
      · have hshort := hnone t ht hfree
        omega

end

end

end Xv6Sharing.User.Umalloc
