/-
Xv6Sharing.User.HeapSize — the sizes that malloc computes (user/umalloc.c).

A request in bytes becomes a number of headers, and that number of headers becomes an
`int` for `sbrk`. From 2^31 - 15 bytes on no block of the heap is large enough, so that
`morecore` is called, and what it asks for is no positive `int`.
-/
import Xv6Sharing.User.HeapRuns

namespace Xv6Sharing.User.Umalloc

open Lib

/-- `malloc` returns no block or one with room for `nbytes` inside the process, and what it computed
on the way are the numbers that were meant. -/
def Conforms (base nbytes : Nat) (grow : Bool) (h : Heap) : Prop :=
  ∃ q h', malloc base rounds grow nbytes h = some (q, h') ∧
    (q = 0 ∨ nbytes + 8 ≤ 8 * h'.size (q - 8) ∧ q - 8 + 8 * h'.size (q - 8) ≤ h'.brk) ∧
    nbytes + 8 ≤ 8 * nunitsFor nbytes ∧
    ∀ x ∈ h'.asked.drop h.asked.length, x = 8 * max (nunitsFor nbytes) 4096 ∧ 0 < x

section

variable {base start nbytes : Nat} {h : Heap} {ts : List Block} {s : State}

theorem conforms_of_le (hl : Layout base start) (hs : Shape base start (initBase base h) ts)
    (hn : nbytes ≤ 2 ^ 31 - 16) (grow : Bool) : Conforms base nbytes grow h := by
  obtain ⟨q, h', ts', hrun, hshape, hlives, hasked⟩ := malloc_shape hl hs hn grow
  have hmod : (nbytes + 7) % 2 ^ 32 = nbytes + 7 := Nat.mod_eq_of_lt (by omega)
  have hunits : nunitsFor nbytes = (nbytes + 7) / 8 + 1 := by rw [nunitsFor, hmod]
  have hint : toInt (max (nunitsFor nbytes) 4096 * 8) = 8 * max (nunitsFor nbytes) 4096 := by
    rw [toInt_of_lt (by omega), Nat.mul_comm]
    rfl
  refine ⟨q, h', hrun, ?_, by omega, fun x hx => ?_⟩
  · rcases hlives with ⟨hzero, -⟩ | ⟨-, hperm⟩
    · exact .inl hzero
    · obtain ⟨b, hb, htag, hq⟩ := mem_lives.mp (hperm.mem_iff.mpr List.mem_cons_self)
      have hroom := hshape.sized.room b.2 (tag_mem_of_place hb) nbytes htag
      have hend := (le_of_mem_place hb).2
      have hq : q = b.1 + 8 := hq
      rw [hq, Nat.add_sub_cancel, hshape.sizes b hb, hshape.brk]
      exact .inr ⟨hroom, hend⟩
  · rcases hasked with hsame | hmore
    · rw [hsame, List.drop_length] at hx
      cases hx
    · rw [hmore, List.drop_left] at hx
      obtain rfl := List.mem_singleton.mp hx
      rw [hint]
      omega

/-- A number of bytes between 2^31 and 2^32 is no positive `int`. -/
theorem toInt_nonpos {x : Nat} (hge : 2 ^ 31 ≤ x) (hle : x ≤ 2 ^ 32) : toInt x ≤ 0 := by
  unfold toInt
  rcases Nat.lt_or_eq_of_le hle with hlt | rfl
  · rw [Nat.mod_eq_of_lt hlt, if_neg (by omega)]
    omega
  · decide

/-- The blocks of the heap are shorter than 2^31 bytes. -/
theorem len_le_of_live (hs : Shape base start h ts) {l : Nat × Nat} (hmem : l ∈ lives start ts) :
    l.2 + 8 ≤ 2 ^ 30 := by
  obtain ⟨b, hb, htag, -⟩ := mem_lives.mp hmem
  have hroom := hs.sized.room b.2 (tag_mem_of_place hb) l.2 htag
  have hend := (le_of_mem_place hb).2
  have hbrk := hs.brk
  have hsmall := hs.small
  omega

theorem not_conforms (hl : Layout base start) (hs : Shape base start (initBase base h) ts)
    (hn : 2 ^ 31 - 16 < nbytes) (hlt : nbytes < 2 ^ 32) (grow : Bool) :
    ¬ Conforms base nbytes grow h := by
  rintro ⟨q, h', hrun, -, hunits, hasked⟩
  have hmod : (nbytes + 7) % 2 ^ 32 = nbytes + 7 := by
    -- otherwise one header is all that is asked for
    rcases Nat.lt_or_ge (nbytes + 7) (2 ^ 32) with hsmall | hlarge
    · exact Nat.mod_eq_of_lt hsmall
    · rw [nunitsFor] at hunits
      omega
  have hnu : nunitsFor nbytes = (nbytes + 7) / 8 + 1 := by rw [nunitsFor, hmod]
  have hinit : (initBase base h).asked = h.asked := by
    unfold initBase
    split <;> rfl
  rw [malloc] at hrun
  rcases mallocLoop_shape hl hs rounds grow (by omega : nbytes + 8 ≤ 8 * nunitsFor nbytes)
    (by decide : 2 ^ 30 ≤ rounds) with ⟨q', h₁, ts', -, -, hshape, hlives, -⟩ | ⟨-, j, -, hpass⟩
  · have hlen := len_le_of_live hshape (hlives.mem_iff.mpr List.mem_cons_self)
    omega
  · rw [hpass] at hrun
    obtain ⟨⟨r, h₁⟩, hmore, hrest⟩ := Option.bind_eq_some_iff.mp hrun
    have hadds : h₁.asked <+: h'.asked := by
      dsimp only at hrest
      split_ifs at hrest
      · cases hrest
        exact List.prefix_rfl
      · exact mallocLoop_asked hrest
    have hfirst := morecore_asked hmore
    rw [hinit] at hfirst
    obtain ⟨rest, hrest⟩ := hadds
    rw [hfirst, List.append_assoc] at hrest
    have hmem : toInt (max (nunitsFor nbytes) 4096 * 8) ∈ h'.asked.drop h.asked.length := by
      rw [← hrest, List.drop_left]
      exact List.mem_cons_self
    have hpos := (hasked _ hmem).2
    have hneg := @toInt_nonpos (max (nunitsFor nbytes) 4096 * 8) (by omega) (by omega)
    omega

/-- In every state of the heap the sizes are right for requests of up to 2^31 - 16 bytes, and wrong
for all others. -/
theorem malloc_sizes_iff (hl : Layout base start) (hs : Held base start s) (hlt : nbytes < 2 ^ 32)
    (grow : Bool) : Conforms base nbytes grow s.heap ↔ nbytes ≤ 2 ^ 31 - 16 := by
  obtain ⟨ts, hshape, -⟩ := hs.initBase hl
  constructor
  · intro hconf
    by_contra hgt
    exact not_conforms hl hshape (not_le.mp hgt) hlt grow hconf
  · intro hn
    exact conforms_of_le hl hshape hn grow

theorem malloc_sizes_iff_page : Conforms 8192 4096 true (emptyHeap 12288) ↔ 4096 ≤ 2 ^ 31 - 16 := by
  have hlayout : Layout 8192 12288 := ⟨by decide, by decide, by decide, by decide⟩
  have hheld : Held 8192 12288 ⟨emptyHeap 12288, []⟩ := .inl ⟨rfl, rfl, rfl⟩
  exact malloc_sizes_iff hlayout hheld (by decide) true

/-- A request for nearly 2^32 bytes takes 24 bytes from the process, and the header of the block that
it did not get is behind the end. -/
theorem malloc_shrinks : nunitsFor 4294967264 * 8 = 4294967272 ∧ toInt 4294967272 = -24 ∧
    (sbrk true (-24) (emptyHeap 12288)).2.brk = 12264 ∧
    ¬ Conforms 8192 4294967264 true (emptyHeap 12288) := by
  refine ⟨by decide, by decide, by decide, ?_⟩
  rintro ⟨q, h', hrun, -⟩
  have hnone : (malloc 8192 rounds true 4294967264 (emptyHeap 12288)).isNone = true := by
    decide +kernel
  rw [hrun] at hnone
  cases hnone

end

end Xv6Sharing.User.Umalloc
