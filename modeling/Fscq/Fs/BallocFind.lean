import Fscq.Fs.Balloc

/-!
# The scanning allocator

`BmapAlloc.alloc` looks for the first byte with an available bit, then for the first available bit of that byte; the bit
of number 0 is set in the first byte before either search.

- what the search for a record gives (`LogRecArray.ifind_first`);
- a byte passes `availNonzero` exactly when the bit search succeeds on it (`availNonzero_eq`), so the branch for a
  failed bit search is not reached;
- the two searches give the smallest available number (`ifindAvailNonzero_spec`, `alloc_smallest_free`).
-/

namespace Fscq

open TxnLogic

/-- `r` is the first record with the property `cond` and its index, or nothing if no record has it. -/
structure LogRecArray.FirstItem (R : RASig) (start len : Nat) (cond : R.Item → Nat → Bool) (d : LDisk)
    (r : Option (Nat × R.Item)) : Prop where
  none_iff : r = none ↔ ∀ ix < len * R.itemsPerVal, cond (item R start d ix) ix = false
  some_iff : ∀ ix x, r = some (ix, x) ↔ ix < len * R.itemsPerVal ∧ x = item R start d ix ∧ cond x ix = true ∧
    ∀ i < ix, cond (item R start d i) i = false

theorem LogRecArray.ifind_first {R : RASig} {n start len : Nat} {cond : R.Item → Nat → Bool} {d : LDisk}
    (ha : start + len ≤ n) :
    twp n (ifind R start len cond) (fun r d' => d' = d ∧ FirstItem R start len cond d r) d := by
  have hget : ∀ i x, ((List.range (len * R.itemsPerVal)).map (item R start d))[i]? = some x ↔
      i < len * R.itemsPerVal ∧ x = item R start d i := by
    intro i x
    by_cases hi : i < len * R.itemsPerVal
    · simp [hi, eq_comm]
    · simp [hi]
  refine twp_mono (fun r d' ⟨hd, hr⟩ => ⟨hd, ?_, fun ix x => ?_⟩) _ (ifind_spec ha)
  · rw [hr, ifindList_eq_none_iff]
    simp only [hget, Nat.zero_add]
    constructor
    · intro h ix hix
      exact h ix _ ⟨hix, rfl⟩
    · rintro h i x ⟨hi, rfl⟩
      exact h i hi
  · rw [hr, ifindList_eq_some_iff]
    simp only [hget, Nat.zero_add]
    constructor
    · rintro ⟨_, rfl, ⟨hix, hx⟩, hc, hbefore⟩
      exact ⟨hix, hx, hc, fun i hi => hbefore i _ hi ⟨by omega, rfl⟩⟩
    · rintro ⟨hix, hx, hc, hbefore⟩
      refine ⟨ix, rfl, ⟨hix, hx⟩, hc, ?_⟩
      rintro i _ hi ⟨_, rfl⟩
      exact hbefore i hi

namespace BmapAlloc

variable {xp : BallocXparams} {n : Nat} {d : LDisk}

/-! ## The bits of a byte -/

theorem hasAvail_eq : ∀ s : BitVec 8, hasAvail s = (ifindByte s).isSome := by decide +kernel

theorem bits_or_one : ∀ s : BitVec 8, bits (s ||| 1) = (bits s).set 0 inuse := by decide +kernel

/-- The test for a byte is the search for a bit. -/
theorem availNonzero_eq (s : BitVec 8) (b : Nat) :
    availNonzero s b = (ifindByte (if b = 0 then s ||| 1 else s)).isSome := by
  rw [availNonzero, ← hasAvail_eq]
  split <;> rfl

theorem getD_bits_masked (s : BitVec 8) (b : Nat) {i : Nat} (hi : i < 8) :
    (bits (if b = 0 then s ||| 1 else s)).getD i inuse = if b * 8 + i = 0 then inuse else (bits s).getD i inuse := by
  by_cases hb : b = 0
  · subst hb
    rw [if_pos rfl, bits_or_one, List.getD_eq_getElem?_getD, List.getElem?_set]
    rcases i with _ | i
    · simp [length_bits]
    · simp [List.getD_eq_getElem?_getD]
  · rw [if_neg hb, if_neg (by omega)]

theorem getElem?_bits {s : BitVec 8} {i : Nat} {x : BitVec 1} :
    (bits s)[i]? = some x ↔ i < 8 ∧ (bits s).getD i inuse = x := by
  rw [List.getD_eq_getElem?_getD]
  by_cases hi : i < 8
  · have hlt : i < (bits s).length := by rwa [length_bits]
    simp [hi, hlt]
  · have hlt : ¬ i < (bits s).length := by rwa [length_bits]
    simp [hi, hlt]

theorem ifindByte_eq_none_iff {s : BitVec 8} : ifindByte s = none ↔ ∀ i < 8, (bits s).getD i inuse ≠ avail := by
  rw [ifindByte, ifindList_eq_none_iff]
  simp only [getElem?_bits, beq_eq_false_iff_ne]
  constructor
  · intro h i hi
    exact h i _ ⟨hi, rfl⟩
  · rintro h i _ ⟨hi, rfl⟩
    exact h i hi

theorem ifindByte_eq_some {s : BitVec 8} {i : Nat} {x : BitVec 1} (h : ifindByte s = some (i, x)) :
    i < 8 ∧ (bits s).getD i inuse = avail ∧ ∀ k < i, (bits s).getD k inuse ≠ avail := by
  obtain ⟨j, rfl, hj, hc, hbefore⟩ := ifindList_eq_some_iff.1 h
  rw [Nat.zero_add]
  obtain ⟨hlt, hx⟩ := getElem?_bits.1 hj
  refine ⟨hlt, hx.trans (beq_iff_eq.1 hc), fun k hk => ?_⟩
  exact beq_eq_false_iff_ne.1 (hbefore k _ hk (getElem?_bits.2 ⟨by omega, rfl⟩))

/-! ## The first available number -/

/-- The masked byte `b` has exactly the available numbers of its range other than 0. -/
theorem masked_avail_iff {b i : Nat} (hi : i < 8) :
    (bits (if b = 0 then LogRecArray.item bmpSig xp.bmapStart d b ||| 1
      else LogRecArray.item bmpSig xp.bmapStart d b)).getD i inuse = avail ↔
      b * 8 + i ≠ 0 ∧ bitAt xp d (b * 8 + i) = avail := by
  rw [getD_bits_masked _ b hi, bitAt, show (b * 8 + i) / 8 = b by omega, show (b * 8 + i) % 8 = i by omega]
  by_cases h0 : b * 8 + i = 0
  · rw [if_pos h0]
    exact iff_of_false (by decide) fun h => h.1 h0
  · rw [if_neg h0]
    exact ⟨fun h => ⟨h0, h⟩, fun h => h.2⟩

/-- A byte without an available number fails the test. -/
theorem availNonzero_eq_false_iff {b : Nat} :
    availNonzero (LogRecArray.item bmpSig xp.bmapStart d b) b = false ↔
      ∀ i < 8, b * 8 + i ≠ 0 → bitAt xp d (b * 8 + i) ≠ avail := by
  rw [availNonzero_eq, Option.isSome_eq_false_iff, Option.isNone_iff_eq_none, ifindByte_eq_none_iff]
  constructor
  · intro h i hi h0 hbit
    exact h i hi ((masked_avail_iff hi).2 ⟨h0, hbit⟩)
  · intro h i hi hbit
    obtain ⟨h0, hbit⟩ := (masked_avail_iff hi).1 hbit
    exact h i hi h0 hbit

/-- What the two searches find: nothing if no number is available, else the smallest one with its byte. -/
theorem ifindAvailNonzero_spec (hx : xp.Ok n) :
    twp n (ifindAvailNonzero xp) (fun r d' => d' = d ∧
      ((r = none ∧ ∀ bn < size xp, bn ≠ 0 → bitAt xp d bn ≠ avail) ∨
       ∃ b i, r = some (b, i, LogRecArray.item bmpSig xp.bmapStart d b) ∧ i < 8 ∧ b * 8 + i < size xp ∧ b * 8 + i ≠ 0 ∧
        bitAt xp d (b * 8 + i) = avail ∧ ∀ bn < b * 8 + i, bn ≠ 0 → bitAt xp d bn ≠ avail)) d := by
  refine twp_seq (LogRecArray.ifind_first hx.inDisk) fun r d' ⟨hd, hnone, hsome⟩ => ?_
  subst hd
  have hsplit : ∀ b, availNonzero (LogRecArray.item bmpSig xp.bmapStart d' b) b = false →
      ∀ bn, bn / 8 = b → bn ≠ 0 → bitAt xp d' bn ≠ avail := by
    intro b hb bn hbn h0
    have hbit := availNonzero_eq_false_iff.1 hb (bn % 8) (Nat.mod_lt _ (by decide))
    rw [show b * 8 + bn % 8 = bn by omega] at hbit
    exact hbit h0
  rcases r with _ | ⟨b, s⟩
  · refine ⟨rfl, .inl ⟨rfl, fun bn hbn h0 => hsplit _ (hnone.1 rfl (bn / 8) ?_) bn rfl h0⟩⟩
    simp only [size, valulen] at hbn
    show bn / 8 < xp.bmapNBlocks * 4096
    omega
  · obtain ⟨hb, rfl, hc, hbefore⟩ := (hsome b s).1 rfl
    rw [availNonzero_eq] at hc
    obtain ⟨⟨i, x⟩, hi⟩ := Option.isSome_iff_exists.1 hc
    obtain ⟨hlt, hav, hfirst⟩ := ifindByte_eq_some hi
    obtain ⟨h0, hbit⟩ := (masked_avail_iff hlt).1 hav
    simp only [hi]
    refine ⟨rfl, .inr ⟨b, i, rfl, hlt, ?_, h0, hbit, fun bn hbn hne => ?_⟩⟩
    · replace hb : b < xp.bmapNBlocks * 4096 := hb
      simp only [size, valulen]
      omega
    · by_cases hdiv : bn / 8 = b
      · have hk : bn % 8 < i := by omega
        have hnot := hfirst (bn % 8) hk
        rw [Ne, masked_avail_iff (Nat.mod_lt _ (by decide)), show b * 8 + bn % 8 = bn by omega] at hnot
        exact fun h => hnot ⟨hne, h⟩
      · exact hsplit _ (hbefore (bn / 8) (by omega)) bn rfl hne

/-- `alloc` takes the smallest available number, if there is one. -/
theorem alloc_spec (hx : xp.Ok n) :
    twp n (alloc xp) (fun r d' =>
      (r = none ∧ d' = d ∧ ∀ bn < size xp, bn ≠ 0 → bitAt xp d bn ≠ avail) ∨
      ∃ bn, r = some bn ∧ d' = putBit xp d bn inuse ∧ bn < size xp ∧ bn ≠ 0 ∧ bitAt xp d bn = avail ∧
        ∀ m < bn, m ≠ 0 → bitAt xp d m ≠ avail) d := by
  refine twp_seq (ifindAvailNonzero_spec hx) fun r d' ⟨hd, hr⟩ => ?_
  subst hd
  rcases hr with ⟨rfl, hnone⟩ | ⟨b, i, rfl, hi, hlt, h0, hbit, hfirst⟩
  · exact .inl ⟨rfl, rfl, hnone⟩
  · have hdisk : xp.bmapStart + b / 4096 < n := by
      have := blk_lt hlt
      have := hx.inDisk
      omega
    refine twp_bind _ (LogRecArray.put_spec hdisk hx.nonzero (.inr ⟨b * 8 + i, rfl, ?_, hlt, h0, hbit, hfirst⟩))
    rw [putBit, show (b * 8 + i) / 8 = b by omega, show (b * 8 + i) % 8 = i by omega]

/-- `r` is the smallest number other than 0 that is available on `d`, and only its bit changes. -/
structure SmallestFree (xp : BallocXparams) (d : LDisk) (r : Option Nat) (d' : LDisk) : Prop where
  none_iff : r = none ↔ ∀ bn < size xp, bn ≠ 0 → bitAt xp d bn = inuse
  same_of_none : r = none → d' = d
  free : ∀ bn, r = some bn → bn < size xp ∧ bn ≠ 0 ∧ bitAt xp d bn = avail
  smallest : ∀ bn, r = some bn → ∀ m < bn, m ≠ 0 → bitAt xp d m = inuse
  bits_eq : ∀ bn, r = some bn → ∀ m, bitAt xp d' m = if m = bn then inuse else bitAt xp d m
  frame : ∀ a, ¬ xp.InBitmap a → d' a = d a

theorem bit_ne_avail_iff {b : BitVec 1} : b ≠ avail ↔ b = inuse := by
  revert b
  decide

/-- The scanning allocator finds the smallest available number: the search over the bytes gives the first byte that passes
the test, the search in a byte that passed does not fail, and the number is taken in the bitmap. -/
theorem alloc_smallest_free (hx : xp.Ok n) (d : LDisk) :
    twp n (alloc xp) (fun r d' => SmallestFree xp d r d') d ∧
    twp n (LogRecArray.ifind bmpSig xp.bmapStart xp.bmapNBlocks availNonzero) (fun r _ => ∀ bn nonfull,
      r = some (bn, nonfull) → ifindByte (if bn = 0 then nonfull ||| 1 else nonfull) ≠ none) d ∧
    ∀ (R : RASig) (start len m : Nat) (cond : R.Item → Nat → Bool) (d : LDisk), start + len ≤ m →
      twp m (LogRecArray.ifind R start len cond) (fun r d' => d' = d ∧ LogRecArray.FirstItem R start len cond d r) d := by
  refine ⟨?_, ?_, fun R start len m cond d ha => LogRecArray.ifind_first ha⟩
  · refine twp_mono (fun r d' h => ?_) _ (alloc_spec hx)
    rcases h with ⟨rfl, rfl, hnone⟩ | ⟨bn, rfl, rfl, hlt, h0, hbit, hfirst⟩
    · exact {
        none_iff := ⟨fun _ m hm h0 => bit_ne_avail_iff.1 (hnone m hm h0), fun _ => rfl⟩
        same_of_none := fun _ => rfl
        free := fun _ h => (nomatch h)
        smallest := fun _ h => (nomatch h)
        bits_eq := fun _ h => (nomatch h)
        frame := fun _ _ => rfl }
    · have hused : ∀ m < bn, m ≠ 0 → bitAt xp d m = inuse := fun m hm hm0 => bit_ne_avail_iff.1 (hfirst m hm hm0)
      refine ⟨⟨fun h => (nomatch h), fun h => ?_⟩, fun h => (nomatch h), ?_, ?_, ?_, fun a ha => putBit_frame hlt _ ha⟩
      · rw [h bn hlt h0] at hbit
        exact absurd hbit (by decide)
      · rintro _ ⟨⟩
        exact ⟨hlt, h0, hbit⟩
      · rintro _ ⟨⟩
        exact hused
      · rintro _ ⟨⟩ m
        exact bitAt_putBit inuse m
  · refine twp_mono (fun r _ ⟨_, hfirst⟩ bn s hr hno => ?_) _ (LogRecArray.ifind_first hx.inDisk)
    obtain ⟨_, _, hc, _⟩ := (hfirst.some_iff bn s).1 hr
    rw [availNonzero_eq, hno] at hc
    cases hc

theorem alloc_smallest_free_small :
    twp 2 (alloc ⟨1, 1⟩) (fun r d' => SmallestFree ⟨1, 1⟩ ⟨fun _ => 0, fun _ => True⟩ r d') ⟨fun _ => 0, fun _ => True⟩ :=
  (alloc_smallest_free ⟨by decide, by decide⟩ ⟨fun _ => 0, fun _ => True⟩).1

end BmapAlloc

end Fscq
