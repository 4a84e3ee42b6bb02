import Fscq.Fuse.WordArith
import Fscq.Rec.Shift

/-!
# Access to one element of an array, as it runs

`wordSelNShift` and `wordUpdNShift` of `Rec.v`, evaluated with the operations of `hslib/Word.hs`. The mask is shifted and
complemented without being cut to the width, so that the words in between are too large or negative; the result is again a
word (`shift_access_agrees`). The width of an element has to fit in an `Int`.
-/

namespace Fscq

namespace HsWord

def wordMask (l n idx : Nat) : Option CoqWord :=
  match l with
  | 0 => some (wzero 0)
  | l0 + 1 => do
    let ones ← wones n
    let w ← combine n ones (l0 * n) (wzero (l0 * n))
    wlshift ((l0 + 1) * n) w (idx * n)

def wordSelNShift (l n idx : Nat) (w : CoqWord) : Option CoqWord :=
  match l with
  | 0 => some (wzero n)
  | l0 + 1 => do
    let w ← wrshift w (idx * n)
    split1 n (l0 * n) w

def wordUpdNShift (l n idx : Nat) (w v : CoqWord) : Option CoqWord :=
  match l with
  | 0 => some w
  | l0 + 1 => do
    let v' := zext v
    let mask ← wordMask (l0 + 1) n idx
    let newmask ← wlshift ((l0 + 1) * n) v' (n * idx)
    let mask ← wnot mask
    let w ← wand w mask
    wor w newmask

/-! ## The words in between -/

section

variable {l n idx : Nat}

theorem wones_eq (hn : n < 2 ^ 63) : wones n = some (.W ((2 ^ n - 1 : Nat) : Int)) := by
  have hmask : ((2 : Int) ^ n - 1) = ((2 ^ n - 1 : Nat) : Int) := by
    rw [Nat.cast_sub Nat.one_le_two_pow]
    simp
  rw [wones, bitmask, fromIntegral_of_lt hn, if_pos (Int.natCast_nonneg n), Int.toNat_natCast, hmask]
  rfl

theorem combine_wzero (hn : n < 2 ^ 63) (x : Int) (m : Nat) : combine n (.W x) m (wzero m) = some (.W x) := by
  have hshift : shiftL 0 (fromIntegral n) = some 0 := by
    rw [fromIntegral_of_lt hn, shiftL, if_pos (Int.natCast_nonneg n), Int.zero_mul]
  have hnum : ∀ w : CoqWord, w.number = 0 → combineNum n (.W x) w = some (.W x) := fun w hw => by
    rw [combineNum, hw, hshift, Option.map_some, CoqWord.number, Int.add_zero]
  unfold wzero
  split
  · exact hnum (.W64 0) rfl
  · exact hnum (.W 0) rfl

/-- The mask, as a natural number. -/
def mask (n idx : Nat) : Nat := (2 ^ n - 1) <<< (idx * n)

theorem wordMask_eq (hn : n < 2 ^ 63) : wordMask (l + 1) n idx = some (.W (mask n idx)) := by
  rw [wordMask, wones_eq hn, Option.bind_eq_bind, Option.bind_some, combine_wzero hn, Option.bind_some, wlshift_W, mask, Nat.shiftLeft_eq]
  push_cast
  rfl

theorem testBit_mask (i : Nat) : (mask n idx).testBit i = decide (idx * n ≤ i ∧ i < idx * n + n) := by
  rw [mask, Nat.testBit_shiftLeft, Nat.testBit_two_pow_sub_one, ← Bool.decide_and, decide_eq_decide]
  omega

theorem wordUpdNShift_eq (hn : n < 2 ^ 63) (x : Nat) (v : CoqWord) {k : Nat} (hv : v.number = k) :
    wordUpdNShift (l + 1) n idx (.W x) v = some (.W (((Nat.ldiff x (mask n idx)) ||| k <<< (n * idx) : Nat) : Int)) := by
  have hz : zext v = .W k := by
    cases v <;> exact congrArg CoqWord.W hv
  have hshift : (k : Int) * 2 ^ (n * idx) = ((k <<< (n * idx) : Nat) : Int) := by
    rw [Nat.shiftLeft_eq]
    push_cast
    rfl
  rw [wordUpdNShift, wordMask_eq hn, hz, Option.bind_eq_bind, Option.bind_some, wlshift_W, Option.bind_some,
    hshift]
  rfl

theorem wordSelNShift_eq (hn : n < 2 ^ 63) (x : Nat) :
    wordSelNShift (l + 1) n idx (.W x) = some (.W ((x / 2 ^ (idx * n) % 2 ^ n : Nat) : Int)) := by
  have hcast : (x : Int) / 2 ^ (idx * n) = ((x / 2 ^ (idx * n) : Nat) : Int) := by push_cast; rfl
  rw [wordSelNShift, wrshift_W, Option.bind_eq_bind, Option.bind_some, hcast]
  by_cases hsmall : x / 2 ^ (idx * n) < 2 ^ 63
  · exact split1W_small n hsmall
  · exact split1W_large (Nat.le_of_not_lt hsmall) (fromIntegral_of_lt hn)

/-! ## They agree with the bit vectors -/

theorem selN_stands (hl : idx < l) (hn : n < 2 ^ 63) {x : Int} (hx : (CoqWord.W x).Valid (l * n)) :
    ∃ r, wordSelNShift l n idx (.W x) = some r ∧ Stands n (Rec.wordSelNShift l n idx ((CoqWord.W x).bits (l * n))) r := by
  obtain ⟨k, rfl, _, hk⟩ := hx.exists_bits
  refine ⟨.W ((k / 2 ^ (idx * n) % 2 ^ n : Nat) : Int), ?_, stands_W ?_⟩
  · obtain ⟨l, rfl⟩ : ∃ m, l = m + 1 := ⟨l - 1, by omega⟩
    exact wordSelNShift_eq hn k
  · rw [Rec.wordSelNShift_eq _ idx hl, BitVec.extractLsb'_toNat, hk, Nat.shiftRight_eq_div_pow]

theorem updN_stands (hl : idx < l) (hn : n < 2 ^ 63) {x : Int} (hx : (CoqWord.W x).Valid (l * n)) {v : CoqWord}
    (hv : v.Valid n) : ∃ r, wordUpdNShift l n idx (.W x) v = some r ∧
      Stands (l * n) (Rec.wordUpdNShift l n idx ((CoqWord.W x).bits (l * n)) (v.bits n)) r := by
  obtain ⟨k, rfl, _, hk⟩ := hx.exists_bits
  obtain ⟨y, hy, hylt⟩ := hv.exists_nat
  have hvbits : (v.bits n).toNat = y := by
    have hbits := hv.toNat_bits
    rw [hy] at hbits
    exact_mod_cast hbits
  refine ⟨.W (((Nat.ldiff k (mask n idx)) ||| y <<< (n * idx) : Nat) : Int), ?_, stands_W ?_⟩
  · obtain ⟨l, rfl⟩ : ∃ m, l = m + 1 := ⟨l - 1, by omega⟩
    exact wordUpdNShift_eq hn k v hy
  -- bit by bit: the slot has the bits of the new element, and all others are kept
  · refine Nat.eq_of_testBit_eq fun i => ?_
    rw [BitVec.testBit_toNat, Rec.getLsbD_wordUpdNShift hl, Nat.testBit_or, Nat.testBit_ldiff, testBit_mask,
      Nat.testBit_shiftLeft, Nat.mul_comm n idx, ← BitVec.testBit_toNat, ← BitVec.testBit_toNat, hk, hvbits]
    by_cases hin : idx * n ≤ i ∧ i < idx * n + n
    · rw [if_pos hin, decide_eq_true hin, decide_eq_true hin.1]
      simp
    · rw [if_neg hin, decide_eq_false hin]
      by_cases hle : idx * n ≤ i
      · have hhigh : y.testBit (i - idx * n) = false := Nat.testBit_lt_two_pow
          (Nat.lt_of_lt_of_le hylt (Nat.pow_le_pow_right (by omega) (by omega)))
        rw [hhigh]
        simp
      · rw [decide_eq_false hle]
        simp

end

/-! ## Elements of arrays -/

/-- The fast accesses and their evaluation agree with unpacking the array. -/
structure AccessAgrees (t : Rec.Typ) (l idx : Nat) (x : Int) (v : CoqWord) : Prop where
  select : (Rec.ofWord (.ArrayF t l) ((CoqWord.W x).bits (l * Rec.len t)) : List (Rec.data t))[idx]? =
    some (Rec.ofWord t (Rec.wordSelNShift l (Rec.len t) idx ((CoqWord.W x).bits (l * Rec.len t))))
  update : (Rec.ofWord (.ArrayF t l)
      (Rec.wordUpdNShift l (Rec.len t) idx ((CoqWord.W x).bits (l * Rec.len t)) (v.bits (Rec.len t))) : List (Rec.data t)) =
    (Rec.ofWord (.ArrayF t l) ((CoqWord.W x).bits (l * Rec.len t)) : List (Rec.data t)).set idx
      (Rec.ofWord t (v.bits (Rec.len t)))
  runSelect : ∃ r, wordSelNShift l (Rec.len t) idx (.W x) = some r ∧
    Stands (Rec.len t) (Rec.wordSelNShift l (Rec.len t) idx ((CoqWord.W x).bits (l * Rec.len t))) r
  runUpdate : ∃ r, wordUpdNShift l (Rec.len t) idx (.W x) v = some r ∧
    Stands (l * Rec.len t)
      (Rec.wordUpdNShift l (Rec.len t) idx ((CoqWord.W x).bits (l * Rec.len t)) (v.bits (Rec.len t))) r

theorem shift_access_agrees (t : Rec.Typ) {l idx : Nat} (hl : idx < l) (hn : Rec.len t < 2 ^ 63) {x : Int}
    (hx : (CoqWord.W x).Valid (l * Rec.len t)) {v : CoqWord} (hv : v.Valid (Rec.len t)) :
    AccessAgrees t l idx x v where
  select := by
    rw [Rec.wordSelNShift_eq _ idx hl]
    exact Rec.getElem?_wordToArray (Rec.ofWord t) _ hl
  update := Rec.wordToArray_wordUpdNShift (Rec.ofWord t) hl _ _
  runSelect := selN_stands hl hn hx
  runUpdate := updN_stands hl hn hx hv

/-- The second of two bytes. -/
theorem shift_access_agrees_byte : AccessAgrees (.WordF 8) 2 1 0x1234 (.W 0x56) :=
  shift_access_agrees (.WordF 8) (by decide) (by decide) ⟨by decide, by decide⟩ ⟨by decide, by decide⟩

/-- An element of 2^63 bits: the width is negative as an `Int`, and there is no mask. -/
theorem wide_access_fails : ¬ ∀ (t : Rec.Typ) (l idx : Nat) (x : Int) (v : CoqWord), idx < l →
    (CoqWord.W x).Valid (l * Rec.len t) → v.Valid (Rec.len t) → v.IsNum → AccessAgrees t l idx x v := by
  intro h
  have hpos : ∀ n, (CoqWord.W 0).Valid n := fun n => ⟨Int.le_refl 0, by positivity⟩
  obtain ⟨r, hr, _⟩ := (h (.WordF (2 ^ 63)) 1 0 0 (.W 0) Nat.one_pos (hpos _) (hpos _) trivial).runUpdate
  have hones : wones (2 ^ 63) = none := rfl
  have hnone : wordUpdNShift 1 (2 ^ 63) 0 (.W 0) (.W 0) = none := by
    rw [wordUpdNShift, wordMask, hones]
    rfl
  cases hnone.symm.trans hr

end HsWord

end Fscq
