import Mathlib.Data.Nat.Digits.Lemmas
import Mathlib.Data.Int.Bitwise
import Fscq.Fuse.Defs

/-!
# Words of the Haskell server

`hslib/Word.hs` replaces the bit vectors of `Word.v` by a type with three constructors: an `Integer`, a `Word64` or a
byte string. The operations that take words apart and put them together:

- `split1`, `split2`, `combine`, `zext`, `natToWord`, `wordToNat`, `weq`, `unbs`, `w2bs`, with the paths by
  representation. Widths are `Integer`s that the code turns into `Int`s to index, shift and count; an index, a shift
  or a length that is negative after that is an error (`none`).
- `Valid` and `number`: what a word of a given width is, and what it stands for.
- `word_ops_meet_iff`: exactly which calls return what the bit vectors say.
-/

namespace Fscq

namespace HsWord

open Fuse (Bytes)

inductive CoqWord
  | W (x : Int)
  | W64 (x : BitVec 64)
  | WBS (b : Bytes)
deriving DecidableEq

/-- `fromIntegral` from `Integer` to `Int`. -/
def fromIntegral (x : Int) : Int := (BitVec.ofInt 64 x).toInt

/-- `importIntegerFromAddr`: the bytes from the lowest to the highest. -/
def bs2i (b : Bytes) : Int := (Nat.ofDigits 256 (b.map UInt8.toNat) : Nat)

/-- The buffer is cleared, and `exportIntegerToAddr` writes as many bytes as the number has. -/
def i2bs (i nbytes : Int) : Option Bytes :=
  let bytes := (Nat.digits 256 i.natAbs).map UInt8.ofNat
  if bytes.length ≤ nbytes then some (bytes ++ List.replicate (nbytes.toNat - bytes.length) 0) else none

/-- The number of a word: `fromIntegral` from `Word64`, `bs2i` from byte strings. -/
def CoqWord.number : CoqWord → Int
  | .W x => x
  | .W64 x => (x.toNat : Int)
  | .WBS b => bs2i b

/-- `bitmask !! i` -/
def bitmask (i : Int) : Option Int := if 0 ≤ i then some (2 ^ i.toNat - 1) else none

def wrap (nbits : Nat) (v : Int) : Option CoqWord :=
  if nbits = 64 then some (.W64 (BitVec.ofInt 64 v)) else (bitmask (fromIntegral nbits)).map fun m => .W (Int.land v m)

/-- `shiftL` and `shiftR` of `Integer`s, for shifts that are not negative. -/
def shiftL (x i : Int) : Option Int := if 0 ≤ i then some (x * 2 ^ i.toNat) else none

def shiftR (x i : Int) : Option Int := if 0 ≤ i then some (x / 2 ^ i.toNat) else none

def unbs : CoqWord → CoqWord
  | .W w => .W w
  | .W64 w => .W64 w
  | .WBS bs => .W (bs2i bs)

def w2bs : CoqWord → Int → Option Bytes
  | .W64 w, nbytes => i2bs w.toNat nbytes
  | .W w, nbytes => i2bs w nbytes
  | .WBS bs, _ => some bs

/-- The clauses for two words that are no byte strings. -/
def weqNum : CoqWord → CoqWord → Bool
  | .W x, .W y => x == y
  | .W x, .W64 y => BitVec.ofInt 64 x == y
  | .W64 x, .W y => x == BitVec.ofInt 64 y
  | .W64 x, .W64 y => x == y
  | _, _ => false

def weq : CoqWord → CoqWord → Bool
  | .WBS x, .WBS y => x == y
  | x, y => weqNum (unbs x) (unbs y)

def natToWord (n x : Nat) : Option CoqWord := if x = 0 then some (.W 0) else wrap n x

/-- There is no clause for byte strings. -/
def wordToNat : CoqWord → Option Int
  | .W x => some x
  | .W64 x => some (x.toNat : Int)
  | .WBS _ => none

def zext : CoqWord → CoqWord
  | .W w => .W w
  | .W64 w => .W (w.toNat : Int)
  | .WBS b => .W (bs2i b)

/-- The bytes of the limbs of a large positive number. -/
def sizeofByteArray (x : Int) : Int := 8 * ((x.toNat.log2 / 64 + 1 : Nat) : Int)

/-- `importIntegerFromByteArray` from the lowest byte on. -/
def importInteger (x nbytes : Int) : Option Int := if 0 ≤ nbytes then some (x % 256 ^ nbytes.toNat) else none

/-- The clauses for `Integer`s, which are small (`S#`) or large and positive (`Jp#`). -/
def split1W (sz1 : Nat) (x : Int) : Option CoqWord :=
  if x = 0 then some (.W 0)
  else if 2 ^ 63 ≤ x ∧ 8 * sizeofByteArray x ≤ fromIntegral sz1 then some (.W x)
  else if 2 ^ 63 ≤ x ∧ sz1 % 8 = 0 then (importInteger x ((fromIntegral sz1).tdiv 8)).map .W
  else if (-2 ^ 63 ≤ x ∧ x < 2 ^ 63) ∧ 64 ≤ sz1 then some (.W x)
  else wrap sz1 x

def split1 (sz1 sz2 : Nat) : CoqWord → Option CoqWord
  | .W x => split1W sz1 x
  | .W64 w => split1W sz1 w.toNat
  | .WBS b => split1W sz2 (bs2i b)  -- `split1 sz2 sz2 (unbs w)`

def split2 (sz1 : Nat) (w : CoqWord) : Option CoqWord := (shiftR w.number (fromIntegral sz1)).map .W

/-- The clauses for two words that are no byte strings. -/
def combineNum (sz1 : Nat) (w1 w2 : CoqWord) : Option CoqWord :=
  (shiftL w2.number (fromIntegral sz1)).map fun h => .W (w1.number + h)

def combine (sz1 : Nat) (w1 : CoqWord) (sz2 : Nat) (w2 : CoqWord) : Option CoqWord :=
  match w1, w2 with
  | .WBS b1, .WBS b2 => some (.WBS (b1 ++ b2))
  | w1, .WBS b2 =>
    if sz1 % 8 = 0 then (w2bs w1 ((fromIntegral sz1).tdiv 8)).map fun b1 => .WBS (b1 ++ b2)
    else combineNum sz1 (unbs w1) (unbs (.WBS b2))
  | .WBS b1, w2 =>
    if sz2 % 8 = 0 then (w2bs w2 ((fromIntegral sz2).tdiv 8)).map fun b2 => .WBS (b1 ++ b2)
    else combineNum sz1 (unbs (.WBS b1)) (unbs w2)
  | w1, w2 => combineNum sz1 w1 w2

/-! ## What the calls should return -/

/-- Words of a width. -/
def CoqWord.Valid (n : Nat) : CoqWord → Prop
  | .W x => 0 ≤ x ∧ x < 2 ^ n
  | .W64 _ => n = 64
  | .WBS b => n = 8 * b.length

/-- A call of one of the operations. Where the operation does not get the width of its operand, the call has it. -/
inductive Call
  | split1 (sz1 sz2 : Nat) (w : CoqWord)
  | split2 (sz1 sz2 : Nat) (w : CoqWord)
  | combine (sz1 : Nat) (w1 : CoqWord) (sz2 : Nat) (w2 : CoqWord)
  | zext (sz : Nat) (w : CoqWord) (sz' : Nat)
  | natToWord (n x : Nat)
  | wordToNat (n : Nat) (w : CoqWord)
  | weq (n : Nat) (x y : CoqWord)
  | unbs (n : Nat) (w : CoqWord)
  | w2bs (w : CoqWord) (nbytes : Nat)

inductive Result
  | word (w : CoqWord)
  | num (x : Int)
  | bool (b : Bool)
  | bytes (b : Bytes)

def Call.run : Call → Option Result
  | .split1 sz1 sz2 w => (HsWord.split1 sz1 sz2 w).map .word
  | .split2 sz1 _ w => (HsWord.split2 sz1 w).map .word
  | .combine sz1 w1 sz2 w2 => (HsWord.combine sz1 w1 sz2 w2).map .word
  | .zext _ w _ => some (.word (HsWord.zext w))
  | .natToWord n x => (HsWord.natToWord n x).map .word
  | .wordToNat _ w => (HsWord.wordToNat w).map .num
  | .weq _ x y => some (.bool (HsWord.weq x y))
  | .unbs _ w => some (.word (HsWord.unbs w))
  | .w2bs w nbytes => (HsWord.w2bs w nbytes).map .bytes

/-- The operands have the widths that the types of `Word.v` give them. -/
def Call.Valid : Call → Prop
  | .split1 sz1 sz2 w => w.Valid (sz1 + sz2)
  | .split2 sz1 sz2 w => w.Valid (sz1 + sz2)
  | .combine sz1 w1 sz2 w2 => w1.Valid sz1 ∧ w2.Valid sz2
  | .zext sz w _ => w.Valid sz
  | .natToWord _ _ => True
  | .wordToNat n w => w.Valid n
  | .weq n x y => x.Valid n ∧ y.Valid n
  | .unbs n w => w.Valid n
  | .w2bs w nbytes => w.Valid (8 * nbytes)

/-- The operation has a clause for the operand. -/
def Call.Defined : Call → Prop
  | .wordToNat _ (.WBS _) => False
  | _ => True

/-- A word of width `n` that stands for `x`. -/
def Result.IsWord (n : Nat) (x : Int) : Result → Prop
  | .word w => w.Valid n ∧ w.number = x
  | _ => False

/-- The result that `Word.v` gives. -/
def Call.Right (r : Result) : Call → Prop
  | .split1 sz1 _ w => r.IsWord sz1 (w.number % 2 ^ sz1)
  | .split2 sz1 sz2 w => r.IsWord sz2 (w.number / 2 ^ sz1)
  | .combine sz1 w1 sz2 w2 => r.IsWord (sz1 + sz2) (w1.number + 2 ^ sz1 * w2.number)
  | .zext sz w sz' => r.IsWord (sz + sz') w.number
  | .natToWord n x => r.IsWord n ((x : Int) % 2 ^ n)
  | .wordToNat _ w => r = .num w.number
  | .weq _ x y => ∃ b, r = .bool b ∧ (b = true ↔ x.number = y.number)
  | .unbs n w => r.IsWord n w.number
  | .w2bs w nbytes => ∃ b, r = .bytes b ∧ b.length = nbytes ∧ bs2i b = w.number

/-- The call returns, and returns the right result. -/
def Call.Meets (c : Call) : Prop := c.Defined → ∃ r, c.run = some r ∧ c.Right r

/-! ## When they do -/

/-- No bit of `x` between the two positions is set. -/
def Clear (x a b : Nat) : Prop := ∀ i, min a b ≤ i → i < max a b → x.testBit i = false

/-- The width is not negative as an `Int`, where it may have lost its high bits. -/
def IntWidth (sz : Nat) (P : Nat → Prop) : Prop := 0 ≤ fromIntegral sz ∧ P (fromIntegral sz).toNat

/-- The condition on the operands. For widths below 2^63, only `split1` of byte strings has one. -/
def Call.Keeps : Call → Prop
  | .split1 sz1 _ (.W x) => x < 2 ^ 63 ∨ IntWidth sz1 fun t => Clear x.toNat t sz1
  | .split1 _ _ (.W64 _) => True
  | .split1 sz1 sz2 (.WBS b) =>
    if bs2i b < 2 ^ 63 then Clear (bs2i b).toNat sz2 sz1 else IntWidth sz2 fun t => Clear (bs2i b).toNat t sz1
  | .split2 sz1 _ w => IntWidth sz1 fun t => t = sz1 ∨ w.number < 2 ^ t
  | .combine _ (.WBS _) _ (.WBS _) => True
  | .combine sz1 w1 sz2 w2 =>
    match w1, w2 with
    | _, .WBS _ => if sz1 % 8 = 0 then sz1 < 2 ^ 63 else IntWidth sz1 fun t => t = sz1 ∨ w2.number = 0
    | .WBS _, _ => if sz2 % 8 = 0 then sz2 < 2 ^ 63 else IntWidth sz1 fun t => t = sz1 ∨ w2.number = 0
    | _, _ => IntWidth sz1 fun t => t = sz1 ∨ w2.number = 0
  | .natToWord n x => x = 0 ∨ n = 64 ∨ IntWidth n fun t => Clear x t n
  | _ => True

/-! ## Widths and masks -/

theorem fromIntegral_of_lt {n : Nat} (h : n < 2 ^ 63) : fromIntegral n = n := by
  unfold fromIntegral
  rw [BitVec.toInt_ofInt]
  exact Int.bmod_eq_of_le (by omega) (by omega)

theorem fromIntegral_lt (x : Int) : fromIntegral x < 2 ^ 63 := by
  unfold fromIntegral
  have := BitVec.toInt_lt (x := BitVec.ofInt 64 x)
  simpa using this

theorem fromIntegral_le (n : Nat) : fromIntegral n ≤ n := by
  by_cases h : n < 2 ^ 63
  · exact Int.le_of_eq (fromIntegral_of_lt h)
  · have := fromIntegral_lt n
    omega

theorem fromIntegral_eq_iff {n : Nat} : fromIntegral n = n ↔ n < 2 ^ 63 := by
  refine ⟨fun h => ?_, fromIntegral_of_lt⟩
  have := fromIntegral_lt n
  omega

theorem fromIntegral_emod_eight (n : Nat) : fromIntegral n % 8 = (n : Int) % 8 := by
  unfold fromIntegral
  rw [BitVec.toInt_ofInt, Int.bmod_def]
  split <;> omega

/-- An `Int` that is a multiple of 8, divided by 8. -/
theorem fromIntegral_tdiv {n : Nat} (h8 : n % 8 = 0) : 8 * (fromIntegral n).tdiv 8 = fromIntegral n := by
  have h := fromIntegral_emod_eight n
  exact Int.mul_tdiv_cancel' (Int.dvd_of_emod_eq_zero (by omega))

theorem intWidth_iff {sz : Nat} {P : Nat → Prop} : IntWidth sz P ↔ ∃ t : Nat, fromIntegral sz = t ∧ P t := by
  unfold IntWidth
  constructor
  · rintro ⟨h0, hp⟩
    exact ⟨_, (Int.toNat_of_nonneg h0).symm, hp⟩
  · rintro ⟨t, ht, hp⟩
    rw [ht]
    exact ⟨Int.natCast_nonneg t, hp⟩

/-- Two masks agree on a number that has no bit between them. -/
theorem mod_eq_mod_iff {x a b : Nat} : x % 2 ^ a = x % 2 ^ b ↔ Clear x a b := by
  constructor
  · intro h i hi hj
    have hbit := congrArg (Nat.testBit · i) h
    simp only [Nat.testBit_mod_two_pow] at hbit
    rcases Nat.le_total a b with hab | hab
    · have ha : ¬ i < a := by omega
      have hb : i < b := by omega
      simpa [ha, hb] using hbit.symm
    · have ha : i < a := by omega
      have hb : ¬ i < b := by omega
      simpa [ha, hb] using hbit
  · intro h
    apply Nat.eq_of_testBit_eq
    intro i
    simp only [Nat.testBit_mod_two_pow]
    by_cases hi : min a b ≤ i ∧ i < max a b
    · rw [h i hi.1 hi.2, Bool.and_false, Bool.and_false]
    · have hab : i < a ↔ i < b := by omega
      rw [decide_eq_decide.mpr hab]

theorem wrap_eq {sz x : Nat} (hsz : sz ≠ 64) {t : Nat} (ht : fromIntegral sz = t) :
    wrap sz x = some (.W ((x % 2 ^ t : Nat) : Int)) := by
  have hmask : ((2 : Int) ^ t - 1) = ((2 ^ t - 1 : Nat) : Int) := by
    rw [Nat.cast_sub Nat.one_le_two_pow]
    simp
  unfold wrap bitmask
  rw [if_neg hsz, ht, if_pos (Int.natCast_nonneg t), Int.toNat_natCast, hmask]
  refine congrArg some (congrArg CoqWord.W ?_)
  exact congrArg Int.ofNat (Nat.and_two_pow_sub_one_eq_mod x t)

theorem wrap_none {sz : Nat} {x : Int} (hsz : sz ≠ 64) (ht : fromIntegral sz < 0) : wrap sz x = none := by
  unfold wrap bitmask
  rw [if_neg hsz, if_neg (by omega)]
  rfl

/-! ## Byte strings -/

theorem bs2i_nonneg (b : Bytes) : 0 ≤ bs2i b := Int.natCast_nonneg _

theorem bs2i_append (b c : Bytes) : bs2i (b ++ c) = bs2i b + 256 ^ b.length * bs2i c := by
  unfold bs2i
  rw [List.map_append, Nat.ofDigits_append, List.length_map]
  push_cast
  rfl

theorem two_pow_eight_mul (k : Nat) : (2 : Int) ^ (8 * k) = 256 ^ k := by
  rw [pow_mul]
  norm_num

theorem toNat_lt_256 {b : Bytes} : ∀ d ∈ b.map UInt8.toNat, d < 256 := by
  intro d hd
  obtain ⟨c, _, rfl⟩ := List.mem_map.mp hd
  exact c.toNat_lt

theorem bs2i_lt (b : Bytes) : bs2i b < 2 ^ (8 * b.length) := by
  have h := Nat.ofDigits_lt_base_pow_length (by omega : 1 < 256) (toNat_lt_256 (b := b))
  rw [List.length_map] at h
  rw [two_pow_eight_mul]
  unfold bs2i
  exact_mod_cast h

theorem bs2i_inj {b c : Bytes} (hlen : b.length = c.length) : bs2i b = bs2i c ↔ b = c := by
  refine ⟨fun h => ?_, fun h => by rw [h]⟩
  have hmap := Nat.ofDigits_inj_of_len_eq (by omega : 1 < 256) (by simpa using hlen) toNat_lt_256 toNat_lt_256
    (by unfold bs2i at h; exact_mod_cast h)
  exact List.map_injective_iff.mpr (fun _ _ h => UInt8.toNat_inj.mp h) hmap

/-- A number that fits in the buffer is written and can be read back. -/
theorem i2bs_eq {x k : Nat} (hx : x < 2 ^ (8 * k)) :
    ∃ b, i2bs (x : Int) (k : Int) = some b ∧ b.length = k ∧ bs2i b = x := by
  have hlen : (Nat.digits 256 x).length ≤ k := by
    rw [Nat.digits_length_le_iff (by omega)]
    rwa [pow_mul] at hx
  unfold i2bs
  rw [Int.natAbs_natCast, if_pos (by rw [List.length_map]; exact_mod_cast hlen), Int.toNat_natCast, List.length_map]
  refine ⟨_, rfl, ?_, ?_⟩
  · rw [List.length_append, List.length_map, List.length_replicate]
    omega
  · have hdigits : ((Nat.digits 256 x).map UInt8.ofNat).map UInt8.toNat = Nat.digits 256 x := by
      rw [List.map_map]
      refine (List.map_congr_left fun d hd => ?_).trans (List.map_id _)
      have hd256 := Nat.digits_lt_base (by omega : 1 < 256) hd
      exact Nat.mod_eq_of_lt hd256
    unfold bs2i
    rw [List.map_append, hdigits, List.map_replicate]
    have hpad := Nat.ofDigits_append_replicate_zero (b := 256) (k := k - (Nat.digits 256 x).length) (Nat.digits 256 x)
    rw [Nat.ofDigits_digits] at hpad
    exact congrArg Int.ofNat hpad

/-! ## Valid words -/

theorem CoqWord.Valid.nonneg {w : CoqWord} {n : Nat} (h : w.Valid n) : 0 ≤ w.number := by
  cases w with
  | W x => exact h.1
  | W64 x => exact Int.natCast_nonneg _
  | WBS b => exact bs2i_nonneg b

theorem CoqWord.Valid.lt {w : CoqWord} {n : Nat} (h : w.Valid n) : w.number < 2 ^ n := by
  cases w with
  | W x => exact h.2
  | W64 x =>
    simp only [Valid] at h
    subst h
    have hlt := x.isLt
    simp only [number]
    exact_mod_cast hlt
  | WBS b =>
    simp only [Valid] at h
    subst h
    exact bs2i_lt b

/-- The number of a valid word, as a natural number. -/
theorem CoqWord.Valid.exists_nat {w : CoqWord} {n : Nat} (h : w.Valid n) :
    ∃ x : Nat, w.number = x ∧ x < 2 ^ n := by
  obtain ⟨x, hx⟩ := Int.eq_ofNat_of_zero_le h.nonneg
  have hlt := h.lt
  rw [hx] at hlt
  exact ⟨x, hx, by exact_mod_cast hlt⟩

@[simp]
theorem unbs_number (w : CoqWord) : (unbs w).number = w.number := by
  cases w <;> rfl

theorem unbs_valid {w : CoqWord} {n : Nat} (h : w.Valid n) : (unbs w).Valid n := by
  cases w with
  | W x => exact h
  | W64 x => exact h
  | WBS b => exact ⟨h.nonneg, h.lt⟩

theorem zext_number (w : CoqWord) : (zext w).number = w.number := by
  cases w <;> rfl

/-- The results of the clauses for numbers. -/
theorem isWord_W {n : Nat} {x y : Int} : (Result.word (.W x)).IsWord n y ↔ (0 ≤ x ∧ x < 2 ^ n) ∧ x = y := Iff.rfl

theorem isWord_mod {n x : Nat} {y : Int} :
    (Result.word (.W y)).IsWord n ((x : Int) % 2 ^ n) ↔ y = ((x % 2 ^ n : Nat) : Int) := by
  have hcast : ((x : Int) % 2 ^ n) = ((x % 2 ^ n : Nat) : Int) := by push_cast; rfl
  rw [isWord_W, hcast]
  refine ⟨fun h => h.2, fun h => ⟨?_, h⟩⟩
  rw [h]
  have := Nat.mod_lt x (Nat.two_pow_pos n)
  exact ⟨Int.natCast_nonneg _, by exact_mod_cast this⟩

/-! ## `wrap`, `natToWord`, `split1` and `split2` -/

/-- The numbers that `wrap` reduces as it should. -/
def WrapOk (n v : Nat) : Prop := n = 64 ∨ IntWidth n fun t => Clear v t n

theorem wrap_iff (n v : Nat) :
    (∃ w, wrap n v = some w ∧ (Result.word w).IsWord n ((v : Int) % 2 ^ n)) ↔ WrapOk n v := by
  by_cases hn : n = 64
  · subst hn
    refine iff_of_true ⟨.W64 (BitVec.ofInt 64 v), if_pos rfl, rfl, ?_⟩ (.inl rfl)
    simp only [CoqWord.number]
    rw [BitVec.toNat_ofInt]
    omega
  rw [WrapOk, intWidth_iff]
  constructor
  · rintro ⟨w, hw, hright⟩
    by_cases ht : 0 ≤ fromIntegral n
    · obtain ⟨t, ht⟩ := Int.eq_ofNat_of_zero_le ht
      rw [wrap_eq hn ht] at hw
      obtain rfl := Option.some.inj hw
      rw [isWord_mod] at hright
      exact .inr ⟨t, ht, mod_eq_mod_iff.mp (by exact_mod_cast hright)⟩
    · rw [wrap_none hn (by omega)] at hw
      cases hw
  · intro h
    obtain ⟨t, ht, hclear⟩ := h.resolve_left hn
    rw [wrap_eq hn ht]
    exact ⟨_, rfl, isWord_mod.mpr (by exact_mod_cast mod_eq_mod_iff.mpr hclear)⟩

theorem natToWord_meets_iff (n x : Nat) : (Call.natToWord n x).Meets ↔ (Call.natToWord n x).Keeps := by
  simp only [Call.Meets, Call.Defined, Call.run, Call.Right, Call.Keeps, natToWord, forall_const]
  by_cases hx : x = 0
  · subst hx
    simp [isWord_W]
  have hiff := wrap_iff n x
  rw [WrapOk] at hiff
  simp only [hx, if_false, false_or, ← hiff]
  constructor
  · rintro ⟨r, hr, hright⟩
    obtain ⟨w, hw, rfl⟩ := Option.map_eq_some_iff.mp hr
    exact ⟨w, hw, hright⟩
  · rintro ⟨w, hw, hright⟩
    exact ⟨.word w, by rw [hw]; rfl, hright⟩

theorem lt_two_pow_limbs (x : Nat) : x < 2 ^ (64 * (x.log2 / 64 + 1)) := by
  refine Nat.lt_of_lt_of_le Nat.lt_log2_self (Nat.pow_le_pow_right (by omega) ?_)
  omega

/-- All paths for small numbers cut at the width itself. -/
theorem split1W_small {x : Nat} (sz : Nat) (hx : x < 2 ^ 63) : split1W sz x = some (.W ((x % 2 ^ sz : Nat) : Int)) := by
  unfold split1W
  by_cases h0 : x = 0
  · subst h0
    simp
  have hsmall : ¬ ((2 : Int) ^ 63 ≤ (x : Int)) := by omega
  rw [if_neg (by omega), if_neg (fun h => hsmall h.1), if_neg (fun h => hsmall h.1)]
  by_cases hsz : 64 ≤ sz
  · rw [if_pos ⟨by omega, hsz⟩, Nat.mod_eq_of_lt]
    exact Nat.lt_trans hx (Nat.pow_lt_pow_right (by omega) (by omega))
  · rw [if_neg (fun h => hsz h.2), wrap_eq (by omega) (fromIntegral_of_lt (by omega))]

/-- All paths for large numbers cut at the width as an `Int`. -/
theorem split1W_large {x sz t : Nat} (hx : 2 ^ 63 ≤ x) (ht : fromIntegral sz = t) :
    split1W sz x = some (.W ((x % 2 ^ t : Nat) : Int)) := by
  unfold split1W
  have hlarge : (2 : Int) ^ 63 ≤ (x : Int) := by omega
  have hlimbs : 8 * sizeofByteArray (x : Int) = ((64 * (x.log2 / 64 + 1) : Nat) : Int) := by
    unfold sizeofByteArray
    rw [Int.toNat_natCast]
    push_cast
    ring
  rw [if_neg (by omega), hlimbs, ht]
  by_cases hall : ((64 * (x.log2 / 64 + 1) : Nat) : Int) ≤ (t : Int)
  · rw [if_pos ⟨hlarge, hall⟩, Nat.mod_eq_of_lt]
    exact Nat.lt_of_lt_of_le (lt_two_pow_limbs x) (Nat.pow_le_pow_right (by omega) (by omega))
  rw [if_neg (fun h => hall h.2)]
  by_cases h8 : sz % 8 = 0
  · have hdiv := fromIntegral_tdiv h8
    rw [ht] at hdiv
    obtain ⟨k, hk⟩ := Int.eq_ofNat_of_zero_le (a := (t : Int).tdiv 8) (by omega)
    have htk : t = 8 * k := by omega
    rw [if_pos ⟨hlarge, h8⟩, hk, importInteger, if_pos (Int.natCast_nonneg k), Int.toNat_natCast, htk,
      ← two_pow_eight_mul]
    push_cast
    rfl
  · have hsz : sz ≠ 64 := by omega
    rw [if_neg (fun h => h8 h.2), if_neg (by omega), wrap_eq hsz ht]

theorem split1W_none {x sz : Nat} (hx : 2 ^ 63 ≤ x) (ht : fromIntegral sz < 0) : split1W sz x = none := by
  unfold split1W
  have hlarge : (2 : Int) ^ 63 ≤ (x : Int) := by omega
  have hlimbs : 0 ≤ 8 * sizeofByteArray (x : Int) := by
    unfold sizeofByteArray
    omega
  rw [if_neg (by omega), if_neg (by omega)]
  by_cases h8 : sz % 8 = 0
  · have hdiv := fromIntegral_tdiv h8
    rw [if_pos ⟨hlarge, h8⟩, importInteger, if_neg (by omega)]
    rfl
  · have hsz : sz ≠ 64 := by omega
    rw [if_neg (fun h => h8 h.2), if_neg (by omega), wrap_none hsz ht]

/-- `split1W` at a width, measured by another one. -/
theorem split1W_isWord_iff (x sz n : Nat) :
    (∃ r, (split1W sz x).map Result.word = some r ∧ r.IsWord n ((x : Int) % 2 ^ n)) ↔
      if x < 2 ^ 63 then Clear x sz n else IntWidth sz fun t => Clear x t n := by
  by_cases hx : x < 2 ^ 63
  · rw [split1W_small sz hx, if_pos hx]
    simp only [Option.map_some, Option.some.injEq, exists_eq_left', isWord_mod, Nat.cast_inj]
    exact mod_eq_mod_iff
  rw [if_neg hx, intWidth_iff]
  by_cases ht : 0 ≤ fromIntegral sz
  · obtain ⟨t, ht⟩ := Int.eq_ofNat_of_zero_le ht
    rw [split1W_large (Nat.le_of_not_lt hx) ht, ht]
    simp only [Option.map_some, Option.some.injEq, exists_eq_left', isWord_mod, Nat.cast_inj]
    exact mod_eq_mod_iff
  · rw [split1W_none (Nat.le_of_not_lt hx) (by omega)]
    constructor
    · rintro ⟨r, hr, _⟩
      cases hr
    · rintro ⟨t, ht', _⟩
      omega

theorem clear_self (x a : Nat) : Clear x a a := mod_eq_mod_iff.mp rfl

theorem split1_meets_iff {sz1 sz2 : Nat} {w : CoqWord} (hv : w.Valid (sz1 + sz2)) :
    (Call.split1 sz1 sz2 w).Meets ↔ (Call.split1 sz1 sz2 w).Keeps := by
  obtain ⟨x, hx, hlt⟩ := hv.exists_nat
  cases w with
  | W y =>
    simp only [CoqWord.number] at hx
    subst hx
    simp only [Call.Meets, Call.Defined, Call.run, Call.Right, Call.Keeps, split1, CoqWord.number, forall_const,
      split1W_isWord_iff, Int.toNat_natCast]
    by_cases hsmall : x < 2 ^ 63
    · rw [if_pos hsmall]
      exact ⟨fun _ => .inl (by omega), fun _ => clear_self x sz1⟩
    · rw [if_neg hsmall]
      exact ⟨.inr, fun h => h.resolve_left (by omega)⟩
  | W64 y =>
    simp only [CoqWord.Valid] at hv
    have hsz : fromIntegral sz1 = sz1 := fromIntegral_of_lt (by omega)
    simp only [Call.Meets, Call.Defined, Call.run, Call.Right, Call.Keeps, split1, CoqWord.number, forall_const,
      split1W_isWord_iff, iff_true]
    split
    · exact clear_self _ sz1
    · exact intWidth_iff.mpr ⟨sz1, hsz, clear_self _ sz1⟩
  | WBS b =>
    simp only [CoqWord.number] at hx
    simp only [Call.Meets, Call.Defined, Call.run, Call.Right, Call.Keeps, split1, CoqWord.number, forall_const, hx,
      split1W_isWord_iff, Int.toNat_natCast]
    by_cases hsmall : x < 2 ^ 63
    · rw [if_pos hsmall, if_pos (by omega)]
    · rw [if_neg hsmall, if_neg (by omega)]

/-- Shifting by fewer bits gives the same only if there is nothing left to shift. -/
theorem div_two_pow_eq_iff {x t sz : Nat} (h : t ≤ sz) : x / 2 ^ t = x / 2 ^ sz ↔ t = sz ∨ x < 2 ^ t := by
  constructor
  · intro heq
    by_contra hne
    have hlt : t < sz := by omega
    have hdiv : x / 2 ^ sz = x / 2 ^ t / 2 ^ (sz - t) := by
      rw [Nat.div_div_eq_div_mul, ← pow_add, Nat.add_sub_cancel' h]
    have hpos : 0 < x / 2 ^ t := Nat.div_pos (by omega) (Nat.two_pow_pos t)
    have := Nat.div_lt_self hpos (Nat.one_lt_two_pow (by omega : sz - t ≠ 0))
    omega
  · rintro (heq | hlt)
    · rw [heq]
    · rw [Nat.div_eq_of_lt hlt, Nat.div_eq_of_lt (Nat.lt_of_lt_of_le hlt (Nat.pow_le_pow_right (by omega) h))]

theorem split2_meets_iff {sz1 sz2 : Nat} {w : CoqWord} (hv : w.Valid (sz1 + sz2)) :
    (Call.split2 sz1 sz2 w).Meets ↔ (Call.split2 sz1 sz2 w).Keeps := by
  obtain ⟨x, hx, hlt⟩ := hv.exists_nat
  simp only [Call.Meets, Call.Defined, Call.run, Call.Right, Call.Keeps, split2, shiftR, hx, forall_const]
  rw [intWidth_iff]
  by_cases ht : 0 ≤ fromIntegral sz1
  · rw [if_pos ht]
    obtain ⟨t, ht⟩ := Int.eq_ofNat_of_zero_le ht
    have hle := fromIntegral_le sz1
    have hhigh : x / 2 ^ sz1 < 2 ^ sz2 := Nat.div_lt_of_lt_mul (by rwa [← pow_add])
    have hcast : ∀ k, (x : Int) / 2 ^ k = ((x / 2 ^ k : Nat) : Int) := fun k => by push_cast; rfl
    rw [ht, Int.toNat_natCast]
    simp only [Option.map_some, Option.some.injEq, exists_eq_left', isWord_W, hcast, Nat.cast_inj]
    have hiff := div_two_pow_eq_iff (x := x) (by omega : t ≤ sz1)
    constructor
    · rintro ⟨_, heq⟩
      exact (hiff.mp heq).imp_right fun h => by exact_mod_cast h
    · intro h
      have heq := hiff.mpr (h.imp_right fun h => by exact_mod_cast h)
      rw [heq]
      exact ⟨⟨Int.natCast_nonneg _, by exact_mod_cast hhigh⟩, rfl⟩
  · rw [if_neg ht]
    constructor
    · rintro ⟨r, hr, _⟩
      cases hr
    · rintro ⟨t, ht', _⟩
      omega

/-! ## `combine` -/

theorem combineNum_isWord_iff {sz1 sz2 : Nat} {w1 w2 : CoqWord} (h1 : w1.Valid sz1) (h2 : w2.Valid sz2) :
    (∃ r, (combineNum sz1 w1 w2).map Result.word = some r ∧
      r.IsWord (sz1 + sz2) (w1.number + 2 ^ sz1 * w2.number)) ↔ IntWidth sz1 fun t => t = sz1 ∨ w2.number = 0 := by
  obtain ⟨x, hx, hxlt⟩ := h1.exists_nat
  obtain ⟨y, hy, hylt⟩ := h2.exists_nat
  unfold combineNum shiftL
  rw [intWidth_iff, hx, hy]
  by_cases ht : 0 ≤ fromIntegral sz1
  · rw [if_pos ht]
    obtain ⟨t, ht⟩ := Int.eq_ofNat_of_zero_le ht
    have hle := fromIntegral_le sz1
    rw [ht, Int.toNat_natCast]
    simp only [Option.map_some, Option.some.injEq, exists_eq_left', isWord_W, Nat.cast_inj]
    have hbound : x + 2 ^ sz1 * y < 2 ^ (sz1 + sz2) := by
      have := Nat.mul_le_mul_left (2 ^ sz1) (by omega : y + 1 ≤ 2 ^ sz2)
      rw [pow_add]
      rw [Nat.mul_add] at this
      omega
    constructor
    · rintro ⟨_, heq⟩
      by_cases hy0 : y = 0
      · exact .inr (by exact_mod_cast hy0)
      · have hpow : y * 2 ^ t = 2 ^ sz1 * y := by
          have : ((y * 2 ^ t : Nat) : Int) = ((2 ^ sz1 * y : Nat) : Int) := by push_cast; linarith
          exact_mod_cast this
        rw [Nat.mul_comm] at hpow
        exact .inl (Nat.pow_right_injective (Nat.le_refl 2) (Nat.eq_of_mul_eq_mul_right (by omega) hpow))
    · intro h
      have heq : (x : Int) + (y : Int) * 2 ^ t = x + 2 ^ sz1 * y := by
        rcases h with h | h
        · rw [h, Int.mul_comm]
        · rw [h, Int.zero_mul, Int.mul_zero]
      refine ⟨?_, heq⟩
      rw [heq]
      exact ⟨by positivity, by exact_mod_cast hbound⟩
  · rw [if_neg ht]
    constructor
    · rintro ⟨r, hr, _⟩
      cases hr
    · rintro ⟨t, ht', _⟩
      omega

/-- The bytes of a word whose width is a whole number of bytes, and an `Int`. -/
theorem w2bs_spec {w : CoqWord} {k : Nat} (hv : w.Valid (8 * k)) :
    ∃ b, w2bs w k = some b ∧ b.length = k ∧ bs2i b = w.number := by
  obtain ⟨x, hx, hlt⟩ := hv.exists_nat
  cases w with
  | W y =>
    simp only [CoqWord.number] at hx
    subst hx
    exact i2bs_eq hlt
  | W64 y =>
    have hxy : (y.toNat : Int) = x := hx
    obtain ⟨b, hb, hlen, hnum⟩ := i2bs_eq hlt
    exact ⟨b, by rw [w2bs, hxy, hb], hlen, by rw [hnum, hx]⟩
  | WBS b =>
    simp only [CoqWord.Valid] at hv
    exact ⟨b, rfl, by omega, rfl⟩

/-- Whatever is written has the length that was asked for. -/
theorem w2bs_length {w : CoqWord} {nbytes : Int} {b : Bytes} (hw : ∀ c, w ≠ .WBS c) (h : w2bs w nbytes = some b) :
    (b.length : Int) = nbytes := by
  have hi2bs : ∀ i, i2bs i nbytes = some b → (b.length : Int) = nbytes := by
    intro i hi
    simp only [i2bs] at hi
    split at hi
    next hle =>
      obtain rfl := Option.some.inj hi
      rw [List.length_append, List.length_replicate]
      omega
    · cases hi
  cases w with
  | W y => exact hi2bs _ h
  | W64 y => exact hi2bs _ h
  | WBS c => exact absurd rfl (hw c)

/-- The bytes of a number have the width of the number if the width is right as an `Int`, and only then. -/
theorem w2bs_width {w : CoqWord} {sz : Nat} (hv : w.Valid sz) (hw : ∀ c, w ≠ .WBS c) (h8 : sz % 8 = 0) :
    (sz < 2 ^ 63 → ∃ b, w2bs w ((fromIntegral sz).tdiv 8) = some b ∧ sz = 8 * b.length ∧ bs2i b = w.number) ∧
      ∀ b, w2bs w ((fromIntegral sz).tdiv 8) = some b → sz = 8 * b.length → sz < 2 ^ 63 := by
  have hdiv := fromIntegral_tdiv h8
  constructor
  · intro hlt
    obtain ⟨k, hk⟩ : ∃ k, sz = 8 * k := ⟨sz / 8, by omega⟩
    have hbytes : (fromIntegral sz).tdiv 8 = k := by
      rw [fromIntegral_of_lt hlt] at hdiv ⊢
      omega
    rw [hk] at hv
    obtain ⟨b, hb, hlen, hnum⟩ := w2bs_spec hv
    exact ⟨b, by rw [hbytes, hb], by rw [hlen, hk], hnum⟩
  · intro b hb hlen
    have := w2bs_length hw hb
    exact fromIntegral_eq_iff.mp (by omega)

theorem isWord_append {b1 b2 : Bytes} {n : Nat} {y : Int} :
    (Result.word (.WBS (b1 ++ b2))).IsWord n y ↔
      n = 8 * b1.length + 8 * b2.length ∧ bs2i b1 + 2 ^ (8 * b1.length) * bs2i b2 = y := by
  rw [two_pow_eight_mul, ← bs2i_append, ← Nat.mul_add, ← List.length_append]
  exact Iff.rfl

theorem combine_left_isWord_iff {sz1 sz2 : Nat} {w1 : CoqWord} {b2 : Bytes} (h1 : w1.Valid sz1)
    (hw : ∀ c, w1 ≠ .WBS c) (h2 : (CoqWord.WBS b2).Valid sz2) (h8 : sz1 % 8 = 0) :
    (∃ r, ((w2bs w1 ((fromIntegral sz1).tdiv 8)).map fun b1 => CoqWord.WBS (b1 ++ b2)).map Result.word = some r ∧
      r.IsWord (sz1 + sz2) (w1.number + 2 ^ sz1 * bs2i b2)) ↔ sz1 < 2 ^ 63 := by
  simp only [CoqWord.Valid] at h2
  obtain ⟨hwidth, hlt_of⟩ := w2bs_width h1 hw h8
  constructor
  · rintro ⟨r, hr, hright⟩
    cases hb : w2bs w1 ((fromIntegral sz1).tdiv 8) with
    | none => rw [hb] at hr; cases hr
    | some b1 =>
      rw [hb] at hr
      obtain rfl := Option.some.inj hr
      have hlen := (isWord_append.mp hright).1
      exact hlt_of b1 hb (by omega)
  · intro hlt
    obtain ⟨b1, hb, hlen, hnum⟩ := hwidth hlt
    rw [hb]
    exact ⟨_, rfl, isWord_append.mpr ⟨by omega, by rw [hnum, hlen]⟩⟩

theorem combine_right_isWord_iff {sz1 sz2 : Nat} {b1 : Bytes} {w2 : CoqWord} (h1 : (CoqWord.WBS b1).Valid sz1)
    (h2 : w2.Valid sz2) (hw : ∀ c, w2 ≠ .WBS c) (h8 : sz2 % 8 = 0) :
    (∃ r, ((w2bs w2 ((fromIntegral sz2).tdiv 8)).map fun b2 => CoqWord.WBS (b1 ++ b2)).map Result.word = some r ∧
      r.IsWord (sz1 + sz2) (bs2i b1 + 2 ^ sz1 * w2.number)) ↔ sz2 < 2 ^ 63 := by
  simp only [CoqWord.Valid] at h1
  obtain ⟨hwidth, hlt_of⟩ := w2bs_width h2 hw h8
  constructor
  · rintro ⟨r, hr, hright⟩
    cases hb : w2bs w2 ((fromIntegral sz2).tdiv 8) with
    | none => rw [hb] at hr; cases hr
    | some b2 =>
      rw [hb] at hr
      obtain rfl := Option.some.inj hr
      have hlen := (isWord_append.mp hright).1
      exact hlt_of b2 hb (by omega)
  · intro hlt
    obtain ⟨b2, hb, hlen, hnum⟩ := hwidth hlt
    rw [hb]
    exact ⟨_, rfl, isWord_append.mpr ⟨by omega, by rw [hnum, h1]⟩⟩

theorem combine_meets_iff {sz1 sz2 : Nat} {w1 w2 : CoqWord} (h1 : w1.Valid sz1) (h2 : w2.Valid sz2) :
    (Call.combine sz1 w1 sz2 w2).Meets ↔ (Call.combine sz1 w1 sz2 w2).Keeps := by
  have hnum := combineNum_isWord_iff h1 h2
  have hunbs := combineNum_isWord_iff (unbs_valid h1) (unbs_valid h2)
  rw [unbs_number, unbs_number] at hunbs
  simp only [Call.Meets, Call.Defined, forall_const, Call.run, Call.Right]
  -- byte strings are appended, a byte string and a number meet as byte strings or as numbers
  cases w2 with
  | WBS b2 =>
    cases w1 with
    | WBS b1 =>
      simp only [CoqWord.Valid] at h1 h2
      simp only [Call.Keeps, iff_true, combine]
      exact ⟨_, rfl, isWord_append.mpr ⟨by omega, by rw [h1]; rfl⟩⟩
    | W x =>
      simp only [Call.Keeps, combine]
      by_cases h8 : sz1 % 8 = 0
      · rw [if_pos h8, if_pos h8]
        exact combine_left_isWord_iff h1 (by simp) h2 h8
      · rw [if_neg h8, if_neg h8]
        exact hunbs
    | W64 x =>
      simp only [Call.Keeps, combine]
      by_cases h8 : sz1 % 8 = 0
      · rw [if_pos h8, if_pos h8]
        exact combine_left_isWord_iff h1 (by simp) h2 h8
      · rw [if_neg h8, if_neg h8]
        exact hunbs
  | W y =>
    cases w1 with
    | WBS b1 =>
      simp only [Call.Keeps, combine]
      by_cases h8 : sz2 % 8 = 0
      · rw [if_pos h8, if_pos h8]
        exact combine_right_isWord_iff h1 h2 (by simp) h8
      · rw [if_neg h8, if_neg h8]
        exact hunbs
    | W x => exact hnum
    | W64 x => exact hnum
  | W64 y =>
    cases w1 with
    | WBS b1 =>
      simp only [Call.Keeps, combine]
      by_cases h8 : sz2 % 8 = 0
      · rw [if_pos h8, if_pos h8]
        exact combine_right_isWord_iff h1 h2 (by simp) h8
      · rw [if_neg h8, if_neg h8]
        exact hunbs
    | W x => exact hnum
    | W64 x => exact hnum

/-! ## The operations without a condition -/

theorem weqNum_iff {n : Nat} {x y : CoqWord} (hx : x.Valid n) (hy : y.Valid n) (hwx : ∀ c, x ≠ .WBS c)
    (hwy : ∀ c, y ≠ .WBS c) : weqNum x y = true ↔ x.number = y.number := by
  cases x with
  | WBS b => exact absurd rfl (hwx b)
  | W x =>
    cases y with
    | WBS b => exact absurd rfl (hwy b)
    | W y => simp [weqNum, CoqWord.number]
    | W64 y =>
      simp only [CoqWord.Valid] at hx hy
      subst hy
      simp only [weqNum, CoqWord.number, beq_iff_eq, ← BitVec.toNat_inj, BitVec.toNat_ofInt]
      omega
  | W64 x =>
    cases y with
    | WBS b => exact absurd rfl (hwy b)
    | W y =>
      simp only [CoqWord.Valid] at hx hy
      subst hx
      simp only [weqNum, CoqWord.number, beq_iff_eq, ← BitVec.toNat_inj, BitVec.toNat_ofInt]
      omega
    | W64 y => simp [weqNum, CoqWord.number, ← BitVec.toNat_inj]

theorem unbs_ne (w : CoqWord) : ∀ c, unbs w ≠ .WBS c := by
  cases w <;> simp [unbs]

theorem weq_iff {n : Nat} {x y : CoqWord} (hx : x.Valid n) (hy : y.Valid n) :
    weq x y = true ↔ x.number = y.number := by
  have hnum := weqNum_iff (unbs_valid hx) (unbs_valid hy) (unbs_ne x) (unbs_ne y)
  rw [unbs_number, unbs_number] at hnum
  cases x with
  | WBS b =>
    cases y with
    | WBS c =>
      simp only [CoqWord.Valid] at hx hy
      simp only [weq, beq_iff_eq, CoqWord.number]
      exact (bs2i_inj (by omega)).symm
    | W y => exact hnum
    | W64 y => exact hnum
  | W x => cases y <;> exact hnum
  | W64 x => cases y <;> exact hnum

theorem zext_valid {w : CoqWord} {sz sz' : Nat} (hv : w.Valid sz) : (zext w).Valid (sz + sz') := by
  have hlt : w.number < 2 ^ (sz + sz') := by
    refine Int.lt_of_lt_of_le hv.lt ?_
    exact_mod_cast Nat.pow_le_pow_right (by omega) (Nat.le_add_right sz sz')
  cases w <;> exact ⟨hv.nonneg, hlt⟩

theorem wordToNat_eq {w : CoqWord} (hw : ∀ c, w ≠ .WBS c) : wordToNat w = some w.number := by
  cases w with
  | W x => rfl
  | W64 x => rfl
  | WBS b => exact absurd rfl (hw b)

/-- Exactly the calls that meet the condition return the word, number or truth value of `Word.v`. -/
theorem word_ops_meet_iff (c : Call) (hv : c.Valid) : c.Meets ↔ c.Keeps := by
  cases c with
  | split1 sz1 sz2 w => exact split1_meets_iff hv
  | split2 sz1 sz2 w => exact split2_meets_iff hv
  | combine sz1 w1 sz2 w2 => exact combine_meets_iff hv.1 hv.2
  | natToWord n x => exact natToWord_meets_iff n x
  | zext sz w sz' => exact iff_of_true (fun _ => ⟨_, rfl, zext_valid hv, zext_number w⟩) trivial
  | wordToNat n w =>
    refine iff_of_true (fun hdef => ?_) (by cases w <;> trivial)
    have hw : ∀ c, w ≠ .WBS c := by
      rintro c rfl
      exact hdef
    exact ⟨.num w.number, congrArg (Option.map Result.num) (wordToNat_eq hw), rfl⟩
  | weq n x y => exact iff_of_true (fun _ => ⟨_, rfl, _, rfl, weq_iff hv.1 hv.2⟩) trivial
  | unbs n w => exact iff_of_true (fun _ => ⟨_, rfl, unbs_valid hv, unbs_number w⟩) trivial
  | w2bs w nbytes =>
    obtain ⟨b, hb, hlen, hnum⟩ := w2bs_spec hv
    exact iff_of_true (fun _ => ⟨.bytes b, congrArg (Option.map Result.bytes) hb, b, rfl, hlen, hnum⟩) trivial

/-- A number and a byte string, put together as byte strings. -/
theorem word_ops_meet_iff_small : (Call.combine 16 (.W 0x0102) 8 (.WBS [3])).Meets :=
  (word_ops_meet_iff (.combine 16 (.W 0x0102) 8 (.WBS [3])) ⟨⟨by decide, by decide⟩, rfl⟩).mpr (by simp [Call.Keeps])

/-- The low byte of the four bytes 1, 2, 3, 4 is 1; `split1` returns the low three bytes. -/
theorem split1_bytes_wrong : ¬ ∀ c : Call, c.Valid → c.Meets := by
  intro h
  obtain ⟨r, hr, hright⟩ := h (.split1 8 24 (.WBS [1, 2, 3, 4])) rfl trivial
  obtain rfl : Result.word (.W 0x030201) = r := Option.some.inj hr
  exact absurd hright.1.2 (by decide)

end HsWord

end Fscq
