import Fscq.Rec.Array

/-!
# Access to one record of a block by shifts and masks

`wordSelNShift` and `wordUpdNShift` take one element out of a packed array, and put one in, without unpacking the
others. They agree with unpacking the whole array (`wordToArray_wordUpdNShift`, `selNVal2block_eq`,
`val2block_updN`).
-/

namespace Fscq

namespace Rec

def wordMask : (l n idx : Nat) → BitVec (l * n)
  | 0, _, _ => 0
  | l + 1, n, idx => ((combine (BitVec.allOnes n) (0 : BitVec (l * n))).cast (succ_mul_len l n)) <<< (idx * n)

def wordSelNShift : (l n idx : Nat) → BitVec (l * n) → BitVec n
  | 0, _, _, _ => 0
  | l + 1, n, idx, w => split1 n (l * n) ((w >>> (idx * n)).cast (succ_mul_len l n).symm)

def wordUpdNShift : (l n idx : Nat) → BitVec (l * n) → BitVec n → BitVec (l * n)
  | 0, _, _, w, _ => w
  | l + 1, n, idx, w, v =>
    (w &&& ~~~ wordMask (l + 1) n idx) ||| ((zext v (l * n)).cast (succ_mul_len l n)) <<< (n * idx)

theorem updN_width {l idx : Nat} (n : Nat) (h : idx < l) : idx * n + (n + (l * n - idx * n - n)) = l * n := by
  have hle : idx * n + n ≤ l * n := by rw [← Nat.succ_mul]; exact Nat.mul_le_mul_right n h
  omega

/-- One element replaced, by cutting the word. -/
def wordUpdN (l n idx : Nat) (w : BitVec (l * n)) (v : BitVec n) : BitVec (l * n) :=
  if h : idx < l then
    (combine (w.extractLsb' 0 (idx * n)) (combine v (w.extractLsb' (idx * n + n) (l * n - idx * n - n)))).cast
      (updN_width n h)
  else w

section

variable {A : Type} {n : Nat}

theorem getLsbD_combine {m : Nat} (a : BitVec n) (b : BitVec m) (i : Nat) :
    (combine a b).getLsbD i = if i < n then a.getLsbD i else b.getLsbD (i - n) := by
  rw [combine, BitVec.getLsbD_cast, BitVec.getLsbD_append]

/-- A record that is padded to a block ends with zeros. -/
theorem getLsbD_padded (t : Typ) (x : data t) (m : Nat) (f g : String) {i : Nat} (hi : len t ≤ i) :
    (toWord (.RecF [(f, t), (g, .WordF m)]) (x, 0, ())).getLsbD i = false := by
  have hpad : (combine (0 : BitVec m) (0 : BitVec 0)).getLsbD (i - len t) = false := by
    rw [getLsbD_combine]
    split <;> exact BitVec.getLsbD_zero
  exact (getLsbD_combine (toWord t x) (combine (0 : BitVec m) (0 : BitVec 0)) i).trans ((if_neg (by omega)).trans hpad)

/-- The elements of an array are the slices of its word. -/
theorem getElem?_wordToArray (f : BitVec n → A) : ∀ {l : Nat} (w : BitVec (l * n)) {j : Nat}, j < l →
    (wordToArray f l w)[j]? = some (f (w.extractLsb' (j * n) n))
  | l + 1, w, 0, _ => by
    rw [wordToArray, List.getElem?_cons_zero]
    refine congrArg (some ∘ f) (BitVec.eq_of_getLsbD_eq fun i hi => ?_)
    simp [split1, hi]
  | l + 1, w, j + 1, hj => by
    rw [wordToArray, List.getElem?_cons_succ, getElem?_wordToArray f _ (Nat.lt_of_succ_lt_succ hj)]
    refine congrArg (some ∘ f) (BitVec.eq_of_getLsbD_eq fun i hi => ?_)
    have hlt : j * n + i < l * n := by
      calc j * n + i < j * n + n := by omega
        _ = (j + 1) * n := (Nat.succ_mul j n).symm
        _ ≤ l * n := Nat.mul_le_mul_right n (by omega)
    simp only [BitVec.getLsbD_extractLsb', hi, decide_true, Bool.true_and, split2, BitVec.getLsbD_setWidth,
      BitVec.getLsbD_ushiftRight, BitVec.getLsbD_cast, hlt]
    congr 1
    rw [Nat.succ_mul]; omega

theorem wordSelNShift_eq : ∀ {l : Nat} (w : BitVec (l * n)) (idx : Nat), idx < l →
    wordSelNShift l n idx w = w.extractLsb' (idx * n) n
  | l + 1, w, idx, _ => by
    refine BitVec.eq_of_getLsbD_eq fun i hi => ?_
    simp [wordSelNShift, split1, hi]

theorem getLsbD_wordMask {l idx : Nat} (hl : idx < l) (i : Nat) :
    (wordMask l n idx).getLsbD i = decide (idx * n ≤ i ∧ i < idx * n + n) := by
  obtain ⟨l, rfl⟩ : ∃ k, l = k + 1 := ⟨l - 1, by omega⟩
  have hle : idx * n + n ≤ (l + 1) * n := by
    rw [← Nat.succ_mul]; exact Nat.mul_le_mul_right n hl
  rw [wordMask, BitVec.getLsbD_shiftLeft, BitVec.getLsbD_cast, getLsbD_combine]
  by_cases h₁ : i < idx * n
  · have hnle : ¬idx * n ≤ i := by omega
    simp [h₁, hnle]
  · by_cases h₂ : i < idx * n + n
    · rw [if_pos (by omega), BitVec.getLsbD_allOnes]
      simp only [h₁, h₂, decide_false, Bool.not_false, Bool.and_eq_decide, decide_eq_true_eq, and_true,
        decide_eq_decide]
      omega
    · rw [if_neg (by omega)]
      simp [h₂]

theorem getLsbD_wordUpdNShift {l idx : Nat} (hl : idx < l) (w : BitVec (l * n)) (v : BitVec n) (i : Nat) :
    (wordUpdNShift l n idx w v).getLsbD i =
      if idx * n ≤ i ∧ i < idx * n + n then v.getLsbD (i - idx * n) else w.getLsbD i := by
  obtain ⟨l, rfl⟩ : ∃ k, l = k + 1 := ⟨l - 1, by omega⟩
  have hle : idx * n + n ≤ (l + 1) * n := by
    rw [← Nat.succ_mul]; exact Nat.mul_le_mul_right n hl
  rw [wordUpdNShift, BitVec.getLsbD_or, BitVec.getLsbD_and, BitVec.getLsbD_not, getLsbD_wordMask hl,
    BitVec.getLsbD_shiftLeft, BitVec.getLsbD_cast, zext, getLsbD_combine, Nat.mul_comm n idx]
  by_cases h₁ : i < idx * n
  · rw [if_neg (by omega : ¬(idx * n ≤ i ∧ i < idx * n + n))]
    have hne : ¬(idx * n ≤ i ∧ i < idx * n + n) := by omega
    by_cases hlt : i < (l + 1) * n
    · simp [h₁, hne, hlt]
    · omega
  · by_cases h₂ : i < idx * n + n
    · have hin : idx * n ≤ i ∧ i < idx * n + n := by omega
      have hlt : i < (l + 1) * n := by omega
      have hlt' : i - idx * n < n := by omega
      simp [h₁, hin, hlt, hlt']
    · have hnin : ¬(idx * n ≤ i ∧ i < idx * n + n) := by omega
      have hnlt : ¬(i - idx * n < n) := by omega
      by_cases hlt : i < (l + 1) * n
      · simp [h₁, hnin, hlt, hnlt]
      · have hw : w.getLsbD i = false := BitVec.getLsbD_of_ge w i (by omega)
        simp [hnin, hnlt, hlt, hw]

/-- The last value that is put in stays. -/
theorem wordUpdNShift_wordUpdNShift {l idx : Nat} (hl : idx < l) (w : BitVec (l * n)) (v v' : BitVec n) :
    wordUpdNShift l n idx (wordUpdNShift l n idx w v) v' = wordUpdNShift l n idx w v' := by
  refine BitVec.eq_of_getLsbD_eq fun i _ => ?_
  rw [getLsbD_wordUpdNShift hl, getLsbD_wordUpdNShift hl, getLsbD_wordUpdNShift hl]
  split <;> rfl

/-- Cutting and masking are the same. -/
theorem wordUpdN_eq {l idx : Nat} (w : BitVec (l * n)) (v : BitVec n) (h : idx < l) :
    wordUpdN l n idx w v = wordUpdNShift l n idx w v := by
  refine BitVec.eq_of_getLsbD_eq fun i hi => ?_
  rw [getLsbD_wordUpdNShift h, wordUpdN, dif_pos h, BitVec.getLsbD_cast, getLsbD_combine, getLsbD_combine]
  by_cases h₁ : i < idx * n
  · rw [if_pos h₁, if_neg (by omega), BitVec.getLsbD_extractLsb', Nat.zero_add, decide_eq_true h₁, Bool.true_and]
  · rw [if_neg h₁]
    by_cases h₂ : i < idx * n + n
    · rw [if_pos (by omega), if_pos (by omega)]
    · rw [if_neg (by omega), if_neg (by omega), BitVec.getLsbD_extractLsb', decide_eq_true (by omega), Bool.true_and,
        show idx * n + n + (i - idx * n - n) = i by omega]

/-- The slices of an updated word. -/
theorem extractLsb'_wordUpdNShift {l idx : Nat} (hl : idx < l) (w : BitVec (l * n)) (v : BitVec n) (j : Nat) :
    (wordUpdNShift l n idx w v).extractLsb' (j * n) n = if j = idx then v else w.extractLsb' (j * n) n := by
  refine BitVec.eq_of_getLsbD_eq fun i hi => ?_
  rw [BitVec.getLsbD_extractLsb', getLsbD_wordUpdNShift hl]
  by_cases hj : j = idx
  · subst hj
    rw [if_pos ⟨by omega, by omega⟩, if_pos rfl]
    simp [hi]
  · have hout : ¬(idx * n ≤ j * n + i ∧ j * n + i < idx * n + n) := by
      rcases Nat.lt_or_gt_of_ne hj with hlt | hgt
      · have : j * n + n ≤ idx * n := by rw [← Nat.succ_mul]; exact Nat.mul_le_mul_right n hlt
        omega
      · have : idx * n + n ≤ j * n := by rw [← Nat.succ_mul]; exact Nat.mul_le_mul_right n hgt
        omega
    rw [if_neg hout, if_neg hj, BitVec.getLsbD_extractLsb']

theorem wordToArray_wordUpdNShift (f : BitVec n → A) {l idx : Nat} (hl : idx < l) (w : BitVec (l * n))
    (v : BitVec n) : wordToArray f l (wordUpdNShift l n idx w v) = (wordToArray f l w).set idx (f v) := by
  refine List.ext_getElem? fun j => ?_
  by_cases hj : j < l
  · rw [getElem?_wordToArray f _ hj, extractLsb'_wordUpdNShift hl, List.getElem?_set, length_wordToArray,
      getElem?_wordToArray f _ hj]
    by_cases he : j = idx
    · rw [if_pos he, if_pos he.symm, if_pos hl]
    · rw [if_neg he, if_neg (Ne.symm he)]
  · rw [List.getElem?_eq_none (by rw [length_wordToArray]; omega),
      List.getElem?_eq_none (by rw [List.length_set, length_wordToArray]; omega)]

end

end Rec

/-! ## Records of a block -/

namespace RASig

variable (R : RASig)

def selNVal2block (v : Valu) (idx : Nat) : R.Item :=
  Rec.ofWord R.itemtype (Rec.wordSelNShift R.itemsPerVal (Rec.len R.itemtype) idx (R.val2word v))

def block2valUpdNVal2block (v : Valu) (idx : Nat) (item : R.Item) : Valu :=
  R.word2val (Rec.wordUpdNShift R.itemsPerVal (Rec.len R.itemtype) idx (R.val2word v) (Rec.toWord R.itemtype item))

theorem val2word_word2val (w : BitVec (Rec.len R.blocktype)) : R.val2word (R.word2val w) = w := by
  simp [val2word, word2val]

variable {R}

theorem getD_val2block (v : Valu) {idx : Nat} (h : idx < R.itemsPerVal) :
    (R.val2block v).getD idx R.item0 =
      Rec.ofWord R.itemtype ((R.val2word v).extractLsb' (idx * Rec.len R.itemtype) (Rec.len R.itemtype)) := by
  rw [List.getD_eq_getElem?_getD]
  have hget := Rec.getElem?_wordToArray (Rec.ofWord R.itemtype) (l := R.itemsPerVal) (R.val2word v) h
  exact congrArg (·.getD R.item0) hget

theorem selNVal2block_eq (v : Valu) {idx : Nat} (h : idx < R.itemsPerVal) :
    R.selNVal2block v idx = (R.val2block v).getD idx R.item0 := by
  rw [getD_val2block v h]
  exact congrArg (Rec.ofWord R.itemtype) (Rec.wordSelNShift_eq _ idx h)

theorem val2block_updN (v : Valu) {idx : Nat} (h : idx < R.itemsPerVal) {item : R.Item}
    (hwf : Rec.WellFormed R.itemtype item) :
    R.val2block (R.block2valUpdNVal2block v idx item) = (R.val2block v).set idx item := by
  have hset := Rec.wordToArray_wordUpdNShift (Rec.ofWord R.itemtype) h (R.val2word v) (Rec.toWord R.itemtype item)
  rw [Rec.ofWord_toWord R.itemtype item hwf] at hset
  exact (congrArg (Rec.ofWord R.blocktype) (R.val2word_word2val _)).trans hset

/-- The bits of the other records stay. -/
theorem getLsbD_block2valUpdNVal2block (v : Valu) {idx : Nat} (h : idx < R.itemsPerVal) (x : R.Item) {i : Nat}
    (hi : ¬ (idx * Rec.len R.itemtype ≤ i ∧ i < idx * Rec.len R.itemtype + Rec.len R.itemtype)) :
    (R.block2valUpdNVal2block v idx x).getLsbD i = v.getLsbD i := by
  have hget := Rec.getLsbD_wordUpdNShift h (R.val2word v) (Rec.toWord R.itemtype x) i
  exact ((BitVec.getLsbD_cast R.blocksz_ok.symm _).trans (hget.trans (if_neg hi))).trans (BitVec.getLsbD_cast R.blocksz_ok v)

theorem block2valUpdNVal2block_twice (v : Valu) {idx : Nat} (h : idx < R.itemsPerVal) (x y : R.Item) :
    R.block2valUpdNVal2block (R.block2valUpdNVal2block v idx x) idx y = R.block2valUpdNVal2block v idx y := by
  have hword := Rec.wordUpdNShift_wordUpdNShift h (R.val2word v) (Rec.toWord R.itemtype x) (Rec.toWord R.itemtype y)
  have hcut : R.val2word (R.block2valUpdNVal2block v idx x) = _ := R.val2word_word2val _
  refine congrArg R.word2val (Eq.trans ?_ hword)
  rw [hcut]

end RASig

end Fscq
