/-
Xv6Sharing.Share.TableTheorems — when `share_data` and `get_data` are the
bounded insert-only map they are meant to be.

The table has no flag for "in use": a slot counts as free when its size is
zero, and a lookup compares names without looking at the size. So the
table simulates the map as long as no name is registered with size zero
and the empty name is not looked up while a free (all-zero) slot is left.
`behaves_iff_served` says that these two are the only ways it can go
wrong.

The invariant is `Packed`: the entries in use come first, under distinct
names, and every slot after them is still the all-zero one.
-/
import Mathlib.Data.List.TakeWhile
import Mathlib.Tactic.Ring
import Xv6Sharing.Share.Table

namespace Xv6Sharing.Share

/-! ## Names -/

theorem toNat_eq_zero_iff (b : UInt8) : b.toNat = 0 ↔ b = 0 := by
  rw [← UInt8.toNat_inj]
  rfl

/-- `strncmp` finds two strings equal exactly when they agree up to the first
NUL or the first `n` bytes, whichever comes first. -/
theorem strncmp_eq_zero_iff (n : Nat) (p q : List UInt8) :
    strncmp n p q = 0 ↔
      (p.takeWhile (· != 0)).take n = (q.takeWhile (· != 0)).take n := by
  induction n generalizing p q with
  | zero => simp [strncmp]
  | succ n ih =>
    rw [strncmp]
    cases p with
    | nil =>
      cases q with
      | nil => simp
      | cons b q => by_cases hb : b = 0 <;> simp [hb, toNat_eq_zero_iff]
    | cons a p =>
      cases q with
      | nil => by_cases ha : a = 0 <;> simp [ha, toNat_eq_zero_iff]
      | cons b q =>
        by_cases ha : a = 0
        · by_cases hb : b = 0 <;> simp [ha, hb, toNat_eq_zero_iff]
        · by_cases hab : a = b
          · subst hab; simp [ha, ih]
          · have hne : ¬ ((a.toNat : Int) - b.toNat = 0) := by
              intro h
              exact hab (UInt8.toNat_inj.mp (by omega))
            by_cases hb : b = 0 <;> simp [ha, hb, hab, hne, toNat_eq_zero_iff]

/-- `strncpy` keeps the string up to its NUL, cut to `n` bytes. -/
theorem takeWhile_strncpy (n : Nat) (t : List UInt8) :
    (strncpy n t).takeWhile (· != 0) = (t.takeWhile (· != 0)).take n := by
  induction n generalizing t with
  | zero => simp [strncpy]
  | succ n ih =>
    rw [strncpy]
    cases t with
    | nil => simp
    | cons a t => by_cases ha : a = 0 <;> simp [ha, ih]

theorem CString.takeWhile_bytes (s : CString) : s.bytes.takeWhile (· != 0) = s.bytes := by
  rw [List.takeWhile_eq_self_iff]
  intro b hb
  have : b ≠ 0 := fun h => s.no_nul (h ▸ hb)
  simpa using this

theorem Shared.key_length_le (e : Shared) : e.key.length ≤ sharedName := by
  rw [← e.name_len]
  exact (List.takeWhile_prefix _).length_le

/-- The comparison both loops make is equality of keys. -/
theorem strncmp_name_iff (s : CString) (e : Shared) :
    strncmp sharedName s.bytes e.name = 0 ↔ s.key = e.key := by
  rw [strncmp_eq_zero_iff, s.takeWhile_bytes]
  have htake : (e.name.takeWhile (· != 0)).take sharedName = e.key :=
    List.take_of_length_le e.key_length_le
  rw [htake]
  rfl

@[simp] theorem Shared.key_make (s : CString) (a : Nat) (z : Int) :
    (Shared.make s a z).key = s.key := by
  show (strncpy sharedName s.bytes).takeWhile (· != 0) = s.key
  rw [takeWhile_strncpy, s.takeWhile_bytes]
  rfl

@[simp] theorem Shared.memstart_make (s : CString) (a : Nat) (z : Int) :
    (Shared.make s a z).memstart = a := rfl

@[simp] theorem Shared.size_make (s : CString) (a : Nat) (z : Int) :
    (Shared.make s a z).size = z := rfl

@[simp] theorem Shared.key_zero : Shared.zero.key = [] := by decide

/-! ## Packed tables -/

/-- The entries in use, `us`, come first and under distinct names; the other
slots are untouched. -/
structure Packed (t : Table) (us : List Shared) : Prop where
  entries_eq : t.entries = us ++ List.replicate (sharedCount - us.length) Shared.zero
  length_le : us.length ≤ sharedCount
  inUse : ∀ e ∈ us, e.size ≠ 0
  nodup : (us.map Shared.key).Nodup

/-- The map a list of entries in use stands for. -/
def bindOf (us : List Shared) : NameMap :=
  List.toFinmap (us.map (fun e => ⟨e.key, e.memstart⟩))

theorem packed_zero : Packed Table.zero [] where
  entries_eq := by simp [Table.zero]
  length_le := by simp
  inUse := by simp
  nodup := by simp

theorem Packed.bindings_eq {t : Table} {us : List Shared} (h : Packed t us) :
    t.bindings = bindOf us := by
  have hus : us.filter (fun e => e.size ≠ 0) = us := by
    rw [List.filter_eq_self]
    intro e he
    simpa using h.inUse e he
  have hz : (List.replicate (sharedCount - us.length) Shared.zero).filter
      (fun e => e.size ≠ 0) = [] := by
    rw [List.filter_eq_nil_iff]
    intro e he
    simp [List.eq_of_mem_replicate he, Shared.zero]
  rw [Table.bindings, h.entries_eq, List.filter_append, hus, hz, List.append_nil, bindOf]

theorem mem_bindOf {us : List Shared} {k : List UInt8} :
    k ∈ bindOf us ↔ k ∈ us.map Shared.key := by
  rw [bindOf, Finmap.mem_list_toFinmap]
  simp only [List.mem_map]
  constructor
  · rintro ⟨a, e, he, heq⟩
    exact ⟨e, he, (Sigma.mk.inj heq).1⟩
  · rintro ⟨e, he, rfl⟩
    exact ⟨e.memstart, e, he, rfl⟩

theorem keys_bindOf (us : List Shared) :
    (bindOf us).keys = (us.map Shared.key).toFinset := by
  ext k
  rw [Finmap.mem_keys, mem_bindOf, List.mem_toFinset]

theorem Packed.card_keys {t : Table} {us : List Shared} (h : Packed t us) :
    (bindOf us).keys.card = us.length := by
  rw [keys_bindOf, List.toFinset_card_of_nodup h.nodup, List.length_map]

theorem bindOf_append {us : List Shared} {e : Shared} (h : e.key ∉ us.map Shared.key) :
    bindOf (us ++ [e]) = (bindOf us).insert e.key e.memstart := by
  apply Finmap.ext_lookup
  intro k
  by_cases hk : k = e.key
  · subst hk
    have hkeys : e.key ∉ (us.map (fun e => (⟨e.key, e.memstart⟩ : Σ _, Nat))).keys := by
      simpa [List.keys, Function.comp_def] using h
    rw [Finmap.lookup_insert, bindOf, Finmap.dlookup_list_toFinmap, List.map_append,
      List.dlookup_append, List.dlookup_eq_none.mpr hkeys]
    simp
  · rw [Finmap.lookup_insert_of_ne _ hk, bindOf, bindOf, Finmap.dlookup_list_toFinmap,
      Finmap.dlookup_list_toFinmap, List.map_append, List.dlookup_append]
    have hnone : List.dlookup k ([e].map (fun e => (⟨e.key, e.memstart⟩ : Σ _, Nat))) = none := by
      rw [List.map_singleton, List.dlookup_cons_ne _ _ hk, List.dlookup_nil]
    rw [hnone, Option.or_none]

/-! ## The two loops on a packed table -/

theorem shareLoop_present (s : CString) (a : Nat) (z : Int) (us rest : List Shared) (i : Nat)
    (hus : ∀ e ∈ us, e.size ≠ 0) (hk : s.key ∈ us.map Shared.key) :
    shareLoop s a z i (us ++ rest) = (-2, us ++ rest) := by
  induction us generalizing i with
  | nil => simp at hk
  | cons e us ih =>
    have he : e.size ≠ 0 := hus e (by simp)
    rw [List.cons_append, shareLoop, if_neg he]
    by_cases hse : s.key = e.key
    · rw [if_pos ((strncmp_name_iff s e).mpr hse)]
    · rw [if_neg (fun h => hse ((strncmp_name_iff s e).mp h))]
      have hk' : s.key ∈ us.map Shared.key := by
        rcases List.mem_cons.mp hk with h | h
        · exact absurd h hse
        · exact h
      rw [ih (i + 1) (fun x hx => hus x (by simp [hx])) hk']

/-- A new name goes through the entries in use to what follows them. -/
theorem shareLoop_absent (s : CString) (a : Nat) (z : Int) (us rest : List Shared) (i : Nat)
    (hus : ∀ e ∈ us, e.size ≠ 0) (hk : s.key ∉ us.map Shared.key) :
    shareLoop s a z i (us ++ rest)
      = ((shareLoop s a z (i + us.length) rest).1,
          us ++ (shareLoop s a z (i + us.length) rest).2) := by
  induction us generalizing i with
  | nil => simp
  | cons e us ih =>
    have he : e.size ≠ 0 := hus e (by simp)
    have hse : s.key ≠ e.key := fun h => hk (by simp [h])
    have hk' : s.key ∉ us.map Shared.key := fun h => hk (by simp only [List.map_cons]; simp [h])
    rw [List.cons_append, shareLoop, if_neg he,
      if_neg (fun h => hse ((strncmp_name_iff s e).mp h)),
      ih (i + 1) (fun x hx => hus x (by simp [hx])) hk']
    have hidx : i + 1 + us.length = i + (e :: us).length := by
      simp only [List.length_cons]; omega
    rw [hidx, List.cons_append]

theorem getLoop_present (s : CString) (us rest : List Shared)
    (hk : s.key ∈ us.map Shared.key) :
    getLoop s (us ++ rest) = (bindOf us).lookup s.key := by
  induction us with
  | nil => simp at hk
  | cons e us ih =>
    rw [bindOf, Finmap.dlookup_list_toFinmap, List.map_cons, List.cons_append, getLoop]
    by_cases hse : s.key = e.key
    · rw [if_pos ((strncmp_name_iff s e).mpr hse), hse, List.dlookup_cons_eq]
    · rw [if_neg (fun h => hse ((strncmp_name_iff s e).mp h)), List.dlookup_cons_ne _ _ hse,
        ← Finmap.dlookup_list_toFinmap]
      refine ih ?_
      rcases List.mem_cons.mp hk with h | h
      · exact absurd h hse
      · exact h

theorem getLoop_absent (s : CString) (us rest : List Shared)
    (hk : s.key ∉ us.map Shared.key) : getLoop s (us ++ rest) = getLoop s rest := by
  induction us with
  | nil => rfl
  | cons e us ih =>
    have hse : s.key ≠ e.key := fun h => hk (by simp [h])
    rw [List.cons_append, getLoop, if_neg (fun h => hse ((strncmp_name_iff s e).mp h))]
    exact ih (fun h => hk (by simp only [List.map_cons]; simp [h]))

/-- Among the untouched slots only the empty name is found. -/
theorem getLoop_zeros (s : CString) (n : Nat) :
    getLoop s (List.replicate n Shared.zero) = if s.key = [] ∧ n ≠ 0 then some 0 else none := by
  induction n with
  | zero => simp [getLoop]
  | succ n ih =>
    rw [List.replicate_succ, getLoop]
    by_cases hk : s.key = []
    · rw [if_pos ((strncmp_name_iff s Shared.zero).mpr (by simp [hk]))]
      simp [hk, Shared.zero]
    · rw [if_neg (fun h => hk (by simpa using (strncmp_name_iff s Shared.zero).mp h)), ih]
      simp [hk]

/-! ## One call -/

/-- What one call on a packed table has to achieve: the result and the new map
of the abstract call, and a packed table again. -/
def CallOk (sz : Nat) (t : Table) (us : List Shared) (c : Call) : Prop :=
  (t.call sz c).1 = (specCall sz (bindOf us) c).1 ∧
  ∃ us', Packed (t.call sz c).2 us' ∧ bindOf us' = (specCall sz (bindOf us) c).2

theorem Packed.append {t t' : Table} {us : List Shared} {e : Shared} (h : Packed t us)
    (hlen : us.length < sharedCount) (he : e.size ≠ 0) (hk : e.key ∉ us.map Shared.key)
    (ht : t'.entries = us ++ e :: List.replicate (sharedCount - us.length - 1) Shared.zero) :
    Packed t' (us ++ [e]) where
  entries_eq := by
    rw [ht, List.append_assoc, List.singleton_append, List.length_append, List.length_singleton,
      Nat.sub_sub]
  length_le := by
    rw [List.length_append, List.length_singleton]
    omega
  inUse := by
    intro x hx
    rcases List.mem_append.mp hx with hx | hx
    · exact h.inUse x hx
    · rw [List.mem_singleton.mp hx]; exact he
  nodup := by
    rw [List.map_append, List.nodup_append]
    refine ⟨h.nodup, by simp, ?_⟩
    intro a ha b hb hab
    rw [List.map_singleton, List.mem_singleton] at hb
    exact hk (hb ▸ hab ▸ ha)

theorem replicate_pred {n : Nat} (h : 0 < n) :
    List.replicate n Shared.zero = Shared.zero :: List.replicate (n - 1) Shared.zero := by
  obtain ⟨m, rfl⟩ : ∃ m, n = m + 1 := ⟨n - 1, by omega⟩
  rw [List.replicate_succ, Nat.add_sub_cancel]

/-- The loop of `sys_share_data` on a packed table, for a name that is not in
it and with a slot left: the slot is filled, whatever the size. -/
theorem shareLoop_insert {t : Table} {us : List Shared} (h : Packed t us) (s : CString)
    (a : Nat) (z : Int) (hk : s.key ∉ us.map Shared.key) (hlen : us.length < sharedCount) :
    shareLoop s a z 0 t.entries
      = ((us.length : Int),
          us ++ Shared.make s a z ::
            List.replicate (sharedCount - us.length - 1) Shared.zero) := by
  rw [h.entries_eq, shareLoop_absent s a z us _ 0 h.inUse hk, replicate_pred (by omega),
    shareLoop, if_pos (show Shared.zero.size = 0 from rfl)]
  simp

theorem call_share_ok {sz : Nat} {t : Table} {us : List Shared} (h : Packed t us)
    (name : Option CString) (addr : Option Nat) (size : Option Int)
    (hserved : (Call.share name addr size).Served sz (bindOf us)) :
    CallOk sz t us (.share name addr size) := by
  have hkeep : ∀ us', bindOf us' = bindOf us → Packed t us' → ∃ us', Packed t us' ∧
      bindOf us' = bindOf us := fun us' hb hp => ⟨us', hp, hb⟩
  cases hname : name with
  | none => exact ⟨rfl, hkeep us rfl h⟩
  | some n =>
    cases haddr : argptr sz addr 4 with
    | none => simpa [CallOk, Table.call, sysShareData, specCall, haddr] using hkeep us rfl h
    | some a =>
      cases hsize : size with
      | none => simpa [CallOk, Table.call, sysShareData, specCall, haddr] using hkeep us rfl h
      | some z =>
        have hcard : (bindOf us).keys.card = us.length := h.card_keys
        by_cases hk : n.key ∈ us.map Shared.key
        · -- the name is there: the scan meets it before any free slot
          have hloop := shareLoop_present n a z us
            (List.replicate (sharedCount - us.length) Shared.zero) 0 h.inUse hk
          rw [← h.entries_eq] at hloop
          refine ⟨?_, us, ?_, ?_⟩
          · simp [Table.call, sysShareData, specCall, haddr, hloop, mem_bindOf.mpr hk]
          · simpa [Table.call, sysShareData, haddr, hloop] using h
          · simp [specCall, haddr, mem_bindOf.mpr hk]
        · have hk' : n.key ∉ bindOf us := fun hm => hk (mem_bindOf.mp hm)
          by_cases hfull : us.length = sharedCount
          · -- no slot is left
            have hloop : shareLoop n a z 0 t.entries = (-3, t.entries) := by
              rw [h.entries_eq, shareLoop_absent n a z us _ 0 h.inUse hk, hfull, Nat.sub_self]
              rfl
            refine ⟨?_, us, ?_, ?_⟩
            · simp [Table.call, sysShareData, specCall, haddr, hloop, hk', hcard, hfull]
            · simpa [Table.call, sysShareData, haddr, hloop] using h
            · simp [specCall, haddr, hk', hcard, hfull]
          · have hlt : us.length < sharedCount := lt_of_le_of_ne h.length_le hfull
            have hz : z ≠ 0 :=
              hserved n a z hname haddr hsize hk' (by rw [hcard]; exact hfull)
            have hloop := shareLoop_insert h n a z hk hlt
            refine ⟨?_, us ++ [Shared.make n a z], ?_, ?_⟩
            · simp [Table.call, sysShareData, specCall, haddr, hloop, hk', hcard, hfull]
            · refine h.append hlt hz (by simpa using hk) ?_
              simp [Table.call, sysShareData, haddr, hloop]
            · rw [bindOf_append (by simpa using hk)]
              simp [specCall, haddr, hk', hcard, hfull]

theorem call_get_ok {sz : Nat} {t : Table} {us : List Shared} (h : Packed t us)
    (name : Option CString) (addrp : Option Nat)
    (hserved : (Call.get name addrp).Served sz (bindOf us)) :
    CallOk sz t us (.get name addrp) := by
  cases hname : name with
  | none => exact ⟨rfl, us, h, rfl⟩
  | some n =>
    cases haddr : argptr sz addrp 4 with
    | none => simpa [CallOk, Table.call, sysGetData, specCall, haddr] using ⟨us, h, rfl⟩
    | some a =>
      by_cases hk : n.key ∈ us.map Shared.key
      · have hloop := getLoop_present n us
          (List.replicate (sharedCount - us.length) Shared.zero) hk
        rw [← h.entries_eq] at hloop
        obtain ⟨b, hb⟩ := Finmap.mem_iff.mp (mem_bindOf.mpr hk)
        refine ⟨?_, us, h, ?_⟩
        · simp [Table.call, sysGetData, specCall, haddr, hloop, hb]
        · simp [specCall, haddr, hb]
      · have hk' : n.key ∉ bindOf us := fun hm => hk (mem_bindOf.mp hm)
        have hnone : (bindOf us).lookup n.key = none := Finmap.lookup_eq_none.mpr hk'
        have hloop : getLoop n t.entries = none := by
          rw [h.entries_eq, getLoop_absent n us _ hk, getLoop_zeros, if_neg]
          rintro ⟨hnil, hroom⟩
          refine hserved n a hname haddr hk' ?_ hnil
          rw [h.card_keys]
          omega
        refine ⟨?_, us, h, ?_⟩
        · simp [Table.call, sysGetData, specCall, haddr, hloop, hnone]
        · simp [specCall, haddr, hnone]

theorem call_ok {sz : Nat} {t : Table} {us : List Shared} (h : Packed t us) (c : Call)
    (hserved : c.Served sz (bindOf us)) : CallOk sz t us c := by
  cases c with
  | share name addr size => exact call_share_ok h name addr size hserved
  | get name addrp => exact call_get_ok h name addrp hserved

/-- A call that is not served does not act as the map does: a size of zero
registers nothing, and the empty name is found in a free slot. -/
theorem served_of_call {sz : Nat} {t : Table} {us : List Shared} (h : Packed t us) (c : Call)
    (hout : (t.call sz c).1 = (specCall sz (bindOf us) c).1)
    (hmap : (t.call sz c).2.bindings = (specCall sz (bindOf us) c).2) :
    c.Served sz (bindOf us) := by
  have hcard : (bindOf us).keys.card = us.length := h.card_keys
  cases c with
  | share name addr size =>
    rintro n a z rfl haddr rfl hk hfull rfl
    have hk' : n.key ∉ us.map Shared.key := fun hm => hk (mem_bindOf.mpr hm)
    have hlt : us.length < sharedCount :=
      lt_of_le_of_ne h.length_le (fun he => hfull (by rw [hcard]; exact he))
    have hloop := shareLoop_insert h n a 0 hk' hlt
    have hcode : ((t.call sz (.share (some n) addr (some 0))).2).bindings = bindOf us := by
      have hus : us.filter (fun e => e.size ≠ 0) = us := by
        rw [List.filter_eq_self]
        intro e he
        simpa using h.inUse e he
      have hz : (Shared.make n a 0 ::
          List.replicate (sharedCount - us.length - 1) Shared.zero).filter
            (fun e => e.size ≠ 0) = [] := by
        rw [List.filter_eq_nil_iff]
        intro e he
        rcases List.mem_cons.mp he with rfl | he
        · simp [Shared.make]
        · simp [List.eq_of_mem_replicate he, Shared.zero]
      simp only [Table.call, sysShareData, haddr, hloop, Table.bindings, List.filter_append,
        hus, hz, List.append_nil, bindOf]
    have hspec : (specCall sz (bindOf us) (.share (some n) addr (some 0))).2
        = (bindOf us).insert n.key a := by
      simp [specCall, haddr, hk, hfull]
    have hmem : n.key ∈ bindOf us := by
      rw [← hcode, hmap, hspec]
      exact Finmap.mem_insert.mpr (Or.inl rfl)
    exact hk hmem
  | get name addrp =>
    rintro n a rfl haddr hk hfull hnil
    have hk' : n.key ∉ us.map Shared.key := fun hm => hk (mem_bindOf.mpr hm)
    have hroom : sharedCount - us.length ≠ 0 := by
      have hne : us.length ≠ sharedCount := fun he => hfull (by rw [hcard]; exact he)
      have hle := h.length_le
      omega
    have hloop : getLoop n t.entries = some 0 := by
      rw [h.entries_eq, getLoop_absent n us _ hk', getLoop_zeros, if_pos ⟨hnil, hroom⟩]
    have hnone : (bindOf us).lookup n.key = none := Finmap.lookup_eq_none.mpr hk
    simp [Table.call, sysGetData, specCall, haddr, hloop, hnone] at hout

/-! ## Whole sequences -/

/-- The abstract calls never unbind or move a name. -/
theorem lookup_specCall {sz : Nat} {m : NameMap} {k : List UInt8} {a : Nat} (c : Call)
    (h : m.lookup k = some a) : ((specCall sz m c).2).lookup k = some a := by
  cases c with
  | get name addrp =>
    simp only [specCall]
    split
    · split <;> exact h
    · exact h
  | share name addr size =>
    cases name with
    | none => exact h
    | some n =>
      cases haddr : argptr sz addr 4 with
      | none => simpa [specCall, haddr] using h
      | some vmStart =>
        cases size with
        | none => simpa [specCall, haddr] using h
        | some z =>
          simp only [specCall, haddr]
          split
          · exact h
          · next hmem =>
            split
            · exact h
            · have hne : k ≠ n.key := by
                rintro rfl
                exact hmem (Finmap.mem_of_lookup_eq_some h)
              rw [Finmap.lookup_insert_of_ne _ hne, h]

theorem behaves_iff_served_of_packed (sz : Nat) (calls : List Call) :
    ∀ (t : Table) (us : List Shared), Packed t us →
      (Behaves sz t (bindOf us) calls ↔ Served sz (bindOf us) calls) := by
  induction calls with
  | nil => intro t us _; simp [Behaves, Served]
  | cons c cs ih =>
    intro t us h
    simp only [Behaves, Served]
    constructor
    · rintro ⟨hout, hmap, _, hrest⟩
      have hserved : c.Served sz (bindOf us) := served_of_call h c hout hmap
      obtain ⟨_, us', hp, hb⟩ := call_ok h c hserved
      refine ⟨hserved, ?_⟩
      rw [← hb] at hrest ⊢
      exact (ih _ us' hp).mp hrest
    · rintro ⟨hserved, hrest⟩
      obtain ⟨hout, us', hp, hb⟩ := call_ok h c hserved
      have hmap : (t.call sz c).2.bindings = (specCall sz (bindOf us) c).2 := by
        rw [hp.bindings_eq, hb]
      refine ⟨hout, hmap, ?_, ?_⟩
      · intro k a hka
        rw [h.bindings_eq] at hka
        rw [hmap]
        exact lookup_specCall c hka
      · rw [← hb] at hrest ⊢
        exact (ih _ us' hp).mpr hrest

/-- **The two system calls are the bounded insert-only map exactly on the
served sequences**: from an all-zero table, a sequence of calls behaves as on
the map if and only if it registers no new name with size zero and looks the
empty name up only when it is bound or the table is full. -/
theorem behaves_iff_served (sz : Nat) (calls : List Call) :
    Behaves sz Table.zero ∅ calls ↔ Served sz ∅ calls :=
  behaves_iff_served_of_packed sz calls Table.zero [] packed_zero

/-- Register `a` with size zero, then `b`, then look the empty name up. -/
def zeroSizeCalls : List Call :=
  [.share (some ⟨[97], by decide⟩) (some 0) (some 0),
   .share (some ⟨[98], by decide⟩) (some 4) (some 4),
   .get (some ⟨[], by decide⟩) (some 8)]

/-- Registering `a` with size zero leaves the slot free, so `b` gets index 0
too; and the empty name, never registered, is found. -/
theorem share_size_zero_overwritten :
    Table.zero.outputs 4096 zeroSizeCalls = [(0, none), (0, none), (0, some 0)] ∧
    specOutputs 4096 ∅ zeroSizeCalls = [(0, none), (1, none), (-2, none)] ∧
    ¬ Behaves 4096 Table.zero ∅ zeroSizeCalls := by
  refine ⟨by decide, by decide, ?_⟩
  rintro ⟨_, _, _, hsecond, _⟩
  exact absurd hsecond (by decide)

end Xv6Sharing.Share
