import Fscq.Fuse.Word

/-!
# Arithmetic on the words of the Haskell server

The arithmetic, the bitwise operations and the shifts of `hslib/Word.hs`, with the clauses by representation. `Stands` says
that a word represents a bit vector; `arith_meets_iff` says exactly which calls return a word that stands for the result of
the bit vectors. `wnot` and `wlshift` do not reduce `Integer`s, and the shifts of byte strings change their length.
-/

namespace Fscq

namespace HsWord

open Fuse (Bytes)

/-! ## The operations -/

/-- The clauses of an operation: one for two `Integer`s, and three that compute with `Word64`. -/
def byRepr (integer : Int → Int → Option CoqWord) (word : BitVec 64 → BitVec 64 → BitVec 64) :
    CoqWord → CoqWord → Option CoqWord
  | .W x, .W y => integer x y
  | .W x, .W64 y => some (.W64 (word (BitVec.ofInt 64 x) y))
  | .W64 x, .W y => some (.W64 (word x (BitVec.ofInt 64 y)))
  | .W64 x, .W64 y => some (.W64 (word x y))
  | _, _ => none

def wplus (n : Nat) : CoqWord → CoqWord → Option CoqWord := byRepr (fun x y => wrap n (x + y)) fun x y => x + y

def wminus (n : Nat) : CoqWord → CoqWord → Option CoqWord := byRepr (fun x y => wrap n (2 ^ n + x - y)) fun x y => x - y

def wmult (n : Nat) : CoqWord → CoqWord → Option CoqWord := byRepr (fun x y => wrap n (x * y)) fun x y => x * y

/-- The last clause turns byte strings into numbers. -/
def wand (x y : CoqWord) : Option CoqWord :=
  byRepr (fun x y => some (.W (Int.land x y))) (fun x y => x &&& y) (unbs x) (unbs y)

/-- There is no clause for byte strings. -/
def wor : CoqWord → CoqWord → Option CoqWord := byRepr (fun x y => some (.W (Int.lor x y))) fun x y => x ||| y

/-- `complement` of an `Integer` is negative. -/
def wnot : CoqWord → Option CoqWord
  | .W w => some (.W (Int.lnot w))
  | .W64 w => some (.W64 (~~~ w))
  | .WBS _ => none

def wzero (n : Nat) : CoqWord := if n = 64 then .W64 0 else .W 0

def wones (n : Nat) : Option CoqWord := (bitmask (fromIntegral n)).map .W

def wltDec : CoqWord → CoqWord → Option Bool
  | .W x, .W y => some (decide (x < y))
  | .W x, .W64 y => some (decide (BitVec.ofInt 64 x < y))
  | .W64 x, .W y => some (decide (x < BitVec.ofInt 64 y))
  | .W64 x, .W64 y => some (decide (x < y))
  | _, _ => none

def maxShift : Nat := 2 ^ 63 - 1

/-- Shifts larger than `maxShift` are done in several steps. -/
def shiftBy (clauses : CoqWord → Nat → Option CoqWord) (w : CoqWord) (s : Nat) : Option CoqWord :=
  if maxShift < s then do
    let w ← shiftBy clauses w maxShift
    shiftBy clauses w (s - maxShift)
  else clauses w s
termination_by s
decreasing_by all_goals simp only [maxShift] at *; omega

def wlshiftNum : CoqWord → Nat → Option CoqWord
  | .W w, s => (shiftL w (fromIntegral s)).map .W
  | .W64 w, s => if 0 ≤ fromIntegral s then some (.W64 (w <<< (fromIntegral s).toNat)) else none
  | .WBS _, _ => none

/-- A byte string loses its last bytes. -/
def wlshiftClauses (sz : Nat) : CoqWord → Nat → Option CoqWord
  | .WBS bs, s =>
    if s % 8 = 0 then some (.WBS (bs.take (fromIntegral (((sz : Int) - s).tdiv 8)).toNat))
    else wlshiftNum (unbs (.WBS bs)) s
  | w, s => wlshiftNum w s

def wlshift (sz : Nat) : CoqWord → Nat → Option CoqWord := shiftBy (wlshiftClauses sz)

def wrshiftNum : CoqWord → Nat → Option CoqWord
  | .W w, s => (shiftR w (fromIntegral s)).map .W
  | .W64 w, s => if 0 ≤ fromIntegral s then some (.W64 (w >>> (fromIntegral s).toNat)) else none
  | .WBS _, _ => none

/-- A byte string loses its first bytes. -/
def wrshiftClauses : CoqWord → Nat → Option CoqWord
  | .WBS bs, s =>
    if s % 8 = 0 then some (.WBS (bs.drop (fromIntegral ((s : Int).tdiv 8)).toNat))
    else wrshiftNum (unbs (.WBS bs)) s
  | w, s => wrshiftNum w s

def wrshift : CoqWord → Nat → Option CoqWord := shiftBy wrshiftClauses

/-! ## What they should return -/

def CoqWord.bits (n : Nat) (w : CoqWord) : BitVec n := BitVec.ofInt n w.number

/-- The word represents the bit vector. -/
structure Stands (n : Nat) (z : BitVec n) (w : CoqWord) : Prop where
  valid : w.Valid n
  number : w.number = (z.toNat : Int)

def CoqWord.IsNum : CoqWord → Prop
  | .WBS _ => False
  | _ => True

inductive ArithCall
  | wplus (n : Nat) (x y : CoqWord)
  | wminus (n : Nat) (x y : CoqWord)
  | wmult (n : Nat) (x y : CoqWord)
  | wand (n : Nat) (x y : CoqWord)
  | wor (n : Nat) (x y : CoqWord)
  | wnot (n : Nat) (x : CoqWord)
  | wlshift (n : Nat) (x : CoqWord) (s : Nat)
  | wrshift (n : Nat) (x : CoqWord) (s : Nat)

namespace ArithCall

def width : ArithCall → Nat
  | .wplus n _ _ | .wminus n _ _ | .wmult n _ _ | .wand n _ _ | .wor n _ _ | .wnot n _ | .wlshift n _ _ | .wrshift n _ _ => n

def run : ArithCall → Option CoqWord
  | .wplus n x y => HsWord.wplus n x y
  | .wminus n x y => HsWord.wminus n x y
  | .wmult n x y => HsWord.wmult n x y
  | .wand _ x y => HsWord.wand x y
  | .wor _ x y => HsWord.wor x y
  | .wnot _ x => HsWord.wnot x
  | .wlshift n x s => HsWord.wlshift n x s
  | .wrshift _ x s => HsWord.wrshift x s

def Valid : ArithCall → Prop
  | .wplus n x y | .wminus n x y | .wmult n x y | .wand n x y | .wor n x y => x.Valid n ∧ y.Valid n
  | .wnot n x | .wlshift n x _ | .wrshift n x _ => x.Valid n

/-- The operation has a clause for the operands. -/
def Defined : ArithCall → Prop
  | .wplus _ x y | .wminus _ x y | .wmult _ x y | .wor _ x y => x.IsNum ∧ y.IsNum
  | .wnot _ x => x.IsNum
  | _ => True

/-- The result that `Word.v` gives. -/
def value : (c : ArithCall) → BitVec c.width
  | .wplus n x y => x.bits n + y.bits n
  | .wminus n x y => x.bits n - y.bits n
  | .wmult n x y => x.bits n * y.bits n
  | .wand n x y => x.bits n &&& y.bits n
  | .wor n x y => x.bits n ||| y.bits n
  | .wnot n x => ~~~ x.bits n
  | .wlshift n x s => x.bits n <<< s
  | .wrshift n x s => x.bits n >>> s

/-- The call returns a word that stands for the result. -/
def Meets (c : ArithCall) : Prop := c.Defined → ∃ w, c.run = some w ∧ Stands c.width c.value w

/-- A condition on two `Integer`s. -/
def OnIntegers (P : Int → Int → Prop) : CoqWord → CoqWord → Prop
  | .W x, .W y => P x y
  | _, _ => True

/-- The condition on the operands. -/
def Keeps : ArithCall → Prop
  | .wplus n x y => OnIntegers (fun x y => WrapOk n (x + y).toNat) x y
  | .wminus n x y => OnIntegers (fun x y => WrapOk n (2 ^ n + x - y).toNat) x y
  | .wmult n x y => OnIntegers (fun x y => WrapOk n (x * y).toNat) x y
  | .wnot _ (.W _) => False
  | .wlshift n (.W x) s => x * 2 ^ s < 2 ^ n
  | .wlshift n (.WBS b) s =>
    if s ≤ maxShift ∧ s % 8 = 0 then b = [] ∨ (s = 0 ∧ b.length < 2 ^ 63) else bs2i b * 2 ^ s < 2 ^ n
  | .wrshift _ (.WBS b) s => s ≤ maxShift ∧ s % 8 = 0 → b = [] ∨ s = 0
  | _ => True

end ArithCall

/-! ## Operands -/

theorem CoqWord.Valid.toNat_bits {w : CoqWord} {n : Nat} (h : w.Valid n) : ((w.bits n).toNat : Int) = w.number := by
  obtain ⟨x, hx, hlt⟩ := h.exists_nat
  rw [bits, hx, BitVec.ofInt_natCast, toNat_ofNat_of_lt hlt]

/-- An `Integer` that is a word is a natural number. -/
theorem CoqWord.Valid.exists_bits {x : Int} {n : Nat} (h : (CoqWord.W x).Valid n) :
    ∃ k : Nat, x = k ∧ k < 2 ^ n ∧ ((CoqWord.W x).bits n).toNat = k := by
  obtain ⟨k, hk, hlt⟩ := h.exists_nat
  have hbits := h.toNat_bits
  rw [hk] at hbits
  exact ⟨k, hk, hlt, by exact_mod_cast hbits⟩

@[simp] theorem bits_W64 (x : BitVec 64) : (CoqWord.W64 x).bits 64 = x := by
  rw [CoqWord.bits, CoqWord.number, BitVec.ofInt_natCast, BitVec.ofNat_toNat, BitVec.setWidth_eq]

theorem stands_W64 (z : BitVec 64) : Stands 64 z (.W64 z) := ⟨rfl, rfl⟩

theorem stands_W {n k : Nat} {z : BitVec n} (h : z.toNat = k) : Stands n z (.W k) := by
  subst h
  exact ⟨⟨Int.natCast_nonneg _, by exact_mod_cast z.isLt⟩, rfl⟩

theorem wrap_stands_iff {n v : Nat} {z : BitVec n} (hz : z.toNat = v % 2 ^ n) :
    (∃ w, wrap n v = some w ∧ Stands n z w) ↔ WrapOk n v := by
  have hcast : ((v : Int) % 2 ^ n) = (z.toNat : Int) := by
    rw [hz]
    push_cast
    rfl
  rw [← wrap_iff n v, hcast]
  exact exists_congr fun w => and_congr_right fun _ => ⟨fun h => ⟨h.valid, h.number⟩, fun h => ⟨h.1, h.2⟩⟩

/-! ## Operations on two words -/

namespace ArithCall

/-- For `Word64` the clauses compute the operation, so that only the one for `Integer`s is left to check. -/
theorem byRepr_iff {n : Nat} {g : Int → Int → Option CoqWord} {f : (m : Nat) → BitVec m → BitVec m → BitVec m}
    {P : Int → Int → Prop} {x y : CoqWord} (hx : x.Valid n) (hy : y.Valid n) (hxn : x.IsNum) (hyn : y.IsNum)
    (hint : ∀ j k : BitVec n, (∃ w, g j.toNat k.toNat = some w ∧ Stands n (f n j k) w) ↔ P j.toNat k.toNat) :
    (∃ w, byRepr g (f 64) x y = some w ∧ Stands n (f n (x.bits n) (y.bits n)) w) ↔ OnIntegers P x y := by
  cases x with
  | WBS b => exact hxn.elim
  | W x =>
    cases y with
    | WBS b => exact hyn.elim
    | W y =>
      have hboth := hint ((CoqWord.W x).bits n) ((CoqWord.W y).bits n)
      rw [hx.toNat_bits, hy.toNat_bits] at hboth
      exact hboth
    | W64 y =>
      obtain rfl : n = 64 := hy
      rw [bits_W64]
      exact iff_of_true ⟨_, rfl, stands_W64 _⟩ trivial
  | W64 x =>
    obtain rfl : n = 64 := hx
    rw [bits_W64]
    cases y with
    | WBS b => exact hyn.elim
    | W y => exact iff_of_true ⟨_, rfl, stands_W64 _⟩ trivial
    | W64 y =>
      rw [bits_W64]
      exact iff_of_true ⟨_, rfl, stands_W64 _⟩ trivial

theorem onIntegers_of_forall {P : Int → Int → Prop} (h : ∀ x y, P x y) (x y : CoqWord) : OnIntegers P x y := by
  cases x <;> cases y <;> first | trivial | exact h _ _

variable {n : Nat} {x y : CoqWord}

theorem wplus_iff (hx : x.Valid n) (hy : y.Valid n) (hd : (wplus n x y).Defined) :
    (∃ w, (wplus n x y).run = some w ∧ Stands n (wplus n x y).value w) ↔ (wplus n x y).Keeps :=
  byRepr_iff (f := fun _ => (· + ·)) hx hy hd.1 hd.2 fun j k => wrap_stands_iff (BitVec.toNat_add j k)

theorem wminus_iff (hx : x.Valid n) (hy : y.Valid n) (hd : (wminus n x y).Defined) :
    (∃ w, (wminus n x y).run = some w ∧ Stands n (wminus n x y).value w) ↔ (wminus n x y).Keeps := by
  refine byRepr_iff (f := fun _ => (· - ·)) hx hy hd.1 hd.2 fun j k => ?_
  have hj := j.isLt
  have hk := k.isLt
  have hcast : ((2 : Int) ^ n + (j.toNat : Int) - (k.toNat : Int)) = ((2 ^ n + j.toNat - k.toNat : Nat) : Int) := by
    rw [Nat.cast_sub (by omega)]
    push_cast
    rfl
  rw [hcast]
  refine wrap_stands_iff ((BitVec.toNat_sub j k).trans ?_)
  congr 1
  omega

theorem wmult_iff (hx : x.Valid n) (hy : y.Valid n) (hd : (wmult n x y).Defined) :
    (∃ w, (wmult n x y).run = some w ∧ Stands n (wmult n x y).value w) ↔ (wmult n x y).Keeps :=
  byRepr_iff (f := fun _ => (· * ·)) hx hy hd.1 hd.2 fun j k => wrap_stands_iff (BitVec.toNat_mul j k)

theorem isNum_unbs (w : CoqWord) : (unbs w).IsNum := by
  cases w <;> trivial

theorem wand_meets (hx : x.Valid n) (hy : y.Valid n) :
    ∃ w, (wand n x y).run = some w ∧ Stands n (wand n x y).value w := by
  have hbits : ∀ w : CoqWord, (unbs w).bits n = w.bits n := fun w => by rw [CoqWord.bits, unbs_number, CoqWord.bits]
  have h := (byRepr_iff (P := fun _ _ => True) (g := fun x y => some (.W (Int.land x y))) (f := fun _ => (· &&& ·)) (unbs_valid hx) (unbs_valid hy) (isNum_unbs x)
    (isNum_unbs y) fun j k => iff_of_true ⟨_, rfl, stands_W (BitVec.toNat_and j k)⟩ trivial).2
    (onIntegers_of_forall (fun _ _ => trivial) _ _)
  rw [hbits, hbits] at h
  exact h

theorem wor_meets (hx : x.Valid n) (hy : y.Valid n) (hd : (wor n x y).Defined) :
    ∃ w, (wor n x y).run = some w ∧ Stands n (wor n x y).value w :=
  (byRepr_iff (P := fun _ _ => True) (g := fun x y => some (.W (Int.lor x y))) (f := fun _ => (· ||| ·)) hx hy hd.1 hd.2
    fun j k => iff_of_true ⟨_, rfl, stands_W (BitVec.toNat_or j k)⟩ trivial).2 (onIntegers_of_forall (fun _ _ => trivial) _ _)

/-- The complement of a natural number is negative. -/
theorem wnot_iff (hx : x.Valid n) (hd : (wnot n x).Defined) :
    (∃ w, (wnot n x).run = some w ∧ Stands n (wnot n x).value w) ↔ (wnot n x).Keeps := by
  cases x with
  | WBS b => exact hd.elim
  | W x =>
    obtain ⟨k, rfl, _, _⟩ := hx.exists_bits
    refine iff_of_false ?_ id
    rintro ⟨w, hw, hs⟩
    obtain rfl : CoqWord.W (Int.negSucc k) = w := Option.some.inj hw
    have hnonneg : 0 ≤ Int.negSucc k := hs.valid.1
    omega
  | W64 x =>
    obtain rfl : n = 64 := hx
    refine iff_of_true ⟨_, rfl, ?_⟩ trivial
    rw [value, bits_W64]
    exact stands_W64 _

end ArithCall

/-! ## Shifts -/

/-- Shifts that add up may be done in steps. -/
theorem shiftBy_eq {A : Type} {clauses : CoqWord → Nat → Option CoqWord} {r : A → CoqWord} {f : A → Nat → A}
    (hf : ∀ a s t, f (f a s) t = f a (s + t)) (hc : ∀ a s, s ≤ maxShift → clauses (r a) s = some (r (f a s)))
    (a : A) (s : Nat) : shiftBy clauses (r a) s = some (r (f a s)) := by
  induction s using Nat.strongRecOn generalizing a with
  | ind s ih =>
    rw [shiftBy]
    split
    · rename_i hlt
      have hpos : 0 < maxShift := by decide
      rw [ih maxShift hlt, Option.bind_eq_bind, Option.bind_some, ih (s - maxShift) (by omega), hf,
        Nat.add_sub_cancel' (Nat.le_of_lt hlt)]
    · exact hc a s (by omega)

theorem shiftBy_small {clauses : CoqWord → Nat → Option CoqWord} {w : CoqWord} {s : Nat} (h : s ≤ maxShift) :
    shiftBy clauses w s = clauses w s := by
  rw [shiftBy, if_neg (by omega)]

/-- Words that the clauses do not tell apart, at `s` or at the step of a larger shift. -/
theorem shiftBy_congr {clauses : CoqWord → Nat → Option CoqWord} {w w' : CoqWord} {s : Nat}
    (hs : s ≤ maxShift → clauses w s = clauses w' s) (hm : clauses w maxShift = clauses w' maxShift) :
    shiftBy clauses w s = shiftBy clauses w' s := by
  by_cases h : s ≤ maxShift
  · rw [shiftBy_small h, shiftBy_small h, hs h]
  · rw [shiftBy, shiftBy.eq_1 clauses w', if_pos (by omega), if_pos (by omega), shiftBy_small (Nat.le_refl _),
      shiftBy_small (Nat.le_refl _), hm]

theorem fromIntegral_shift {s : Nat} (h : s ≤ maxShift) : fromIntegral s = s :=
  fromIntegral_of_lt (Nat.lt_of_le_of_lt h (by decide))

theorem wlshift_W (n : Nat) (x : Int) (s : Nat) : wlshift n (.W x) s = some (.W (x * 2 ^ s)) :=
  shiftBy_eq (r := CoqWord.W) (f := fun x s => x * 2 ^ s) (fun a s t => by rw [Int.mul_assoc, ← pow_add])
    (fun a s hs => by
      simp only [wlshiftClauses, wlshiftNum, fromIntegral_shift hs, shiftL, if_pos (Int.natCast_nonneg s)]
      rfl) x s

theorem wrshift_W (x : Int) (s : Nat) : wrshift (.W x) s = some (.W (x / 2 ^ s)) :=
  shiftBy_eq (r := CoqWord.W) (f := fun x s => x / 2 ^ s)
    (fun a s t => by rw [Int.ediv_ediv_of_nonneg (by positivity), ← pow_add])
    (fun a s hs => by
      simp only [wrshiftClauses, wrshiftNum, fromIntegral_shift hs, shiftR, if_pos (Int.natCast_nonneg s)]
      rfl) x s

theorem wlshift_W64 (n : Nat) (x : BitVec 64) (s : Nat) : wlshift n (.W64 x) s = some (.W64 (x <<< s)) :=
  shiftBy_eq (r := CoqWord.W64) (f := fun x s => x <<< s) (fun a s t => (BitVec.shiftLeft_add a s t).symm)
    (fun a s hs => by
      simp only [wlshiftClauses, wlshiftNum, fromIntegral_shift hs, if_pos (Int.natCast_nonneg s)]
      rfl) x s

theorem wrshift_W64 (x : BitVec 64) (s : Nat) : wrshift (.W64 x) s = some (.W64 (x >>> s)) :=
  shiftBy_eq (r := CoqWord.W64) (f := fun x s => x >>> s) (fun a s t => (BitVec.shiftRight_add a s t).symm)
    (fun a s hs => by
      simp only [wrshiftClauses, wrshiftNum, fromIntegral_shift hs, if_pos (Int.natCast_nonneg s)]
      rfl) x s

theorem maxShift_mod : ¬ maxShift % 8 = 0 := by decide

/-- Where a byte string is not shifted by whole bytes, it is turned into a number. -/
theorem wlshift_bytes {b : Bytes} {s : Nat} (n : Nat) (h : ¬ (s ≤ maxShift ∧ s % 8 = 0)) :
    wlshift n (.WBS b) s = some (.W (bs2i b * 2 ^ s)) := by
  have hc : ∀ s, ¬ s % 8 = 0 → wlshiftClauses n (.WBS b) s = wlshiftClauses n (.W (bs2i b)) s := fun s h8 => by
    simp only [wlshiftClauses, if_neg h8, unbs]
  rw [← wlshift_W n]
  exact shiftBy_congr (fun hs => hc s fun h8 => h ⟨hs, h8⟩) (hc maxShift maxShift_mod)

theorem wrshift_bytes {b : Bytes} {s : Nat} (h : ¬ (s ≤ maxShift ∧ s % 8 = 0)) :
    wrshift (.WBS b) s = some (.W (bs2i b / 2 ^ s)) := by
  have hc : ∀ s, ¬ s % 8 = 0 → wrshiftClauses (.WBS b) s = wrshiftClauses (.W (bs2i b)) s := fun s h8 => by
    simp only [wrshiftClauses, if_neg h8, unbs]
  rw [← wrshift_W]
  exact shiftBy_congr (fun hs => hc s fun h8 => h ⟨hs, h8⟩) (hc maxShift maxShift_mod)

/-- The number of bytes that are left. -/
theorem fromIntegral_bytes (len : Nat) {s : Nat} (hs : s ≤ maxShift) (h8 : s % 8 = 0) :
    len ≤ (fromIntegral ((((8 * len : Nat) : Int) - s).tdiv 8)).toNat ↔ len = 0 ∨ (s = 0 ∧ len < 2 ^ 63) := by
  obtain ⟨t, rfl⟩ : ∃ t, s = 8 * t := ⟨s / 8, by omega⟩
  have hdiv : (((8 * len : Nat) : Int) - ((8 * t : Nat) : Int)).tdiv 8 = (len : Int) - t := by
    have hmul : ((8 * len : Nat) : Int) - ((8 * t : Nat) : Int) = ((len : Int) - t) * 8 := by push_cast; ring
    rw [hmul, Int.mul_tdiv_cancel _ (by decide)]
  rw [hdiv]
  by_cases hle : t ≤ len
  · have hcast : (len : Int) - t = ((len - t : Nat) : Int) := by omega
    have hint := fromIntegral_le (len - t)
    rw [hcast]
    constructor
    · intro h
      by_cases h0 : len = 0
      · exact .inl h0
      · have ht : t = 0 := by omega
        subst ht
        rw [Nat.sub_zero] at h hint
        exact .inr ⟨rfl, fromIntegral_eq_iff.1 (by omega)⟩
    · rintro (h0 | ⟨h0, hlt⟩)
      · omega
      · obtain rfl : t = 0 := by omega
        rw [Nat.sub_zero, fromIntegral_of_lt hlt]
        omega
  · have ht : t < 2 ^ 63 := by
      have hmax : maxShift < 2 ^ 63 := by decide
      omega
    have hneg : fromIntegral ((len : Int) - t) = (len : Int) - t := by
      rw [fromIntegral, BitVec.toInt_ofInt]
      exact Int.bmod_eq_of_le (by omega) (by omega)
    rw [hneg]
    omega

namespace ArithCall

variable {n s : Nat} {x : CoqWord}

/-- A shifted number, if it is still a word. -/
theorem stands_shiftLeft {k : Nat} {z : BitVec n} (hz : z.toNat = k) :
    Stands n (z <<< s) (.W ((k : Int) * 2 ^ s)) ↔ (k : Int) * 2 ^ s < 2 ^ n := by
  have hcast : (k : Int) * 2 ^ s = ((k * 2 ^ s : Nat) : Int) := by push_cast; rfl
  refine ⟨fun h => h.valid.2, fun h => ?_⟩
  rw [hcast] at h ⊢
  have hlt : k * 2 ^ s < 2 ^ n := by exact_mod_cast h
  refine stands_W ?_
  rw [BitVec.toNat_shiftLeft, hz, Nat.shiftLeft_eq, Nat.mod_eq_of_lt hlt]

theorem stands_shiftRight {k : Nat} {z : BitVec n} (hz : z.toNat = k) : Stands n (z >>> s) (.W ((k : Int) / 2 ^ s)) := by
  have hcast : (k : Int) / 2 ^ s = ((k / 2 ^ s : Nat) : Int) := by push_cast; rfl
  rw [hcast]
  refine stands_W ?_
  rw [BitVec.toNat_ushiftRight, hz, Nat.shiftRight_eq_div_pow]

theorem wlshift_iff (hx : x.Valid n) :
    (∃ w, (wlshift n x s).run = some w ∧ Stands n (wlshift n x s).value w) ↔ (wlshift n x s).Keeps := by
  cases x with
  | W x =>
    obtain ⟨k, rfl, hlt, hk⟩ := hx.exists_bits
    simp only [run, wlshift_W, Option.some.injEq, exists_eq_left']
    exact stands_shiftLeft hk
  | W64 x =>
    obtain rfl : n = 64 := hx
    simp only [run, wlshift_W64, Option.some.injEq, exists_eq_left', value, bits_W64]
    exact iff_of_true (stands_W64 _) trivial
  | WBS b =>
    have hn : n = 8 * b.length := hx
    have hbits := hx.toNat_bits
    rw [Keeps]
    split
    · rename_i hwhole
      have hrun : HsWord.wlshift n (.WBS b) s = some (.WBS (b.take (fromIntegral (((n : Int) - s).tdiv 8)).toNat)) :=
        (shiftBy_small hwhole.1).trans (if_pos hwhole.2)
      have hlen := fromIntegral_bytes b.length hwhole.1 hwhole.2
      rw [← hn] at hlen
      simp only [run, hrun, Option.some.injEq, exists_eq_left', ← List.length_eq_zero_iff, ← hlen]
      generalize (fromIntegral (((n : Int) - s).tdiv 8)).toNat = m at hlen
      constructor
      · intro h
        have hwidth : n = 8 * (b.take m).length := h.valid
        rw [List.length_take] at hwidth
        omega
      · intro h
        rw [List.take_of_length_le h]
        refine ⟨hx, hbits.symm.trans ?_⟩
        rcases hlen.1 h with h0 | ⟨rfl, _⟩
        · obtain rfl : n = 0 := by omega
          have hz : ∀ z : BitVec 0, (z.toNat : Int) = 0 := fun z => by
            rw [BitVec.eq_nil z]
            rfl
          exact (hz _).trans (hz _).symm
        · rw [value, BitVec.shiftLeft_zero]
    · rename_i hpart
      simp only [run, wlshift_bytes n hpart, Option.some.injEq, exists_eq_left']
      obtain ⟨k, hk, _⟩ := hx.exists_nat
      have hnum : bs2i b = k := hk
      rw [hk] at hbits
      rw [hnum]
      exact stands_shiftLeft (by exact_mod_cast hbits)

theorem wrshift_iff (hx : x.Valid n) :
    (∃ w, (wrshift n x s).run = some w ∧ Stands n (wrshift n x s).value w) ↔ (wrshift n x s).Keeps := by
  cases x with
  | W x =>
    obtain ⟨k, rfl, hlt, hk⟩ := hx.exists_bits
    simp only [run, wrshift_W, Option.some.injEq, exists_eq_left']
    exact iff_of_true (stands_shiftRight hk) trivial
  | W64 x =>
    obtain rfl : n = 64 := hx
    simp only [run, wrshift_W64, Option.some.injEq, exists_eq_left', value, bits_W64]
    exact iff_of_true (stands_W64 _) trivial
  | WBS b =>
    have hn : n = 8 * b.length := hx
    have hbits := hx.toNat_bits
    rw [Keeps]
    by_cases hwhole : s ≤ maxShift ∧ s % 8 = 0
    · have hdiv : (fromIntegral ((s : Int).tdiv 8)).toNat = s / 8 := by
        have hcast : (s : Int).tdiv 8 = ((s / 8 : Nat) : Int) := by
          rw [Int.tdiv_eq_ediv_of_nonneg (Int.natCast_nonneg s)]
          rfl
        rw [hcast, fromIntegral_shift (Nat.le_trans (Nat.div_le_self s 8) hwhole.1)]
        rfl
      have hrun : HsWord.wrshift (.WBS b) s = some (.WBS (b.drop (s / 8))) := by
        rw [← hdiv]
        exact (shiftBy_small hwhole.1).trans (if_pos hwhole.2)
      simp only [run, hrun, Option.some.injEq, exists_eq_left', hwhole, and_self, forall_const]
      constructor
      · intro h
        have hwidth : n = 8 * (b.drop (s / 8)).length := h.valid
        rw [List.length_drop] at hwidth
        by_cases h0 : b.length = 0
        · exact .inl (List.length_eq_zero_iff.1 h0)
        · exact .inr (by omega)
      · rintro (rfl | rfl)
        · obtain rfl : n = 0 := hn
          have hz : ∀ z : BitVec 0, (z.toNat : Int) = 0 := fun z => by
            rw [BitVec.eq_nil z]
            rfl
          rw [List.drop_nil]
          exact ⟨rfl, (hz _).symm⟩
        · refine ⟨hx, hbits.symm.trans ?_⟩
          rw [value, BitVec.ushiftRight_zero]
    · simp only [run, wrshift_bytes hwhole, Option.some.injEq, exists_eq_left']
      obtain ⟨k, hk, _⟩ := hx.exists_nat
      have hnum : bs2i b = k := hk
      rw [hk] at hbits
      rw [hnum]
      exact iff_of_true (stands_shiftRight (by exact_mod_cast hbits)) fun h => absurd h hwhole

end ArithCall

/-! ## All operations -/

/-- Words that stand for bit vectors are compared as the bit vectors. -/
theorem Stands.weq_iff {n : Nat} {z : BitVec n} {w y : CoqWord} (hw : Stands n z w) (hy : y.Valid n) :
    weq w y = true ↔ z = y.bits n := by
  rw [HsWord.weq_iff hw.valid hy, hw.number, ← hy.toNat_bits, ← BitVec.toNat_inj]
  exact Nat.cast_inj

theorem Stands.eq_bits {n : Nat} {z : BitVec n} {w : CoqWord} (hw : Stands n z w) : z = w.bits n := by
  have hbits := hw.valid.toNat_bits
  rw [hw.number] at hbits
  exact BitVec.eq_of_toNat_eq (by exact_mod_cast hbits.symm)

theorem Stands.wltDec_eq {n : Nat} {z : BitVec n} {w y : CoqWord} (hw : Stands n z w) (hy : y.Valid n) (hwn : w.IsNum)
    (hyn : y.IsNum) : wltDec w y = some (decide (z < y.bits n)) := by
  have hwv := hw.valid
  rw [hw.eq_bits]
  cases w with
  | WBS b => exact hwn.elim
  | W x =>
    cases y with
    | WBS b => exact hyn.elim
    | W y =>
      obtain ⟨j, rfl, _, hj⟩ := hwv.exists_bits
      obtain ⟨k, rfl, _, hk⟩ := hy.exists_bits
      refine congrArg some (decide_eq_decide.2 ?_)
      rw [BitVec.lt_def, hj, hk]
      exact Nat.cast_lt
    | W64 y =>
      obtain rfl : n = 64 := hy
      rw [bits_W64]
      rfl
  | W64 x =>
    obtain rfl : n = 64 := hwv
    rw [bits_W64]
    cases y with
    | WBS b => exact hyn.elim
    | W y => rfl
    | W64 y =>
      rw [bits_W64]
      rfl

theorem Stands.wordToNat_eq {n : Nat} {z : BitVec n} {w : CoqWord} (hw : Stands n z w) (hwn : w.IsNum) :
    wordToNat w = some (z.toNat : Int) := by
  rw [← hw.number]
  cases w with
  | WBS b => exact hwn.elim
  | W x => rfl
  | W64 x => rfl

namespace ArithCall

theorem onIntegers_of_not {P : Int → Int → Prop} {x y : CoqWord} (h : ¬ (x.IsNum ∧ y.IsNum)) : OnIntegers P x y := by
  cases x <;> cases y <;> first | trivial | exact absurd ⟨trivial, trivial⟩ h

/-- Calls without a clause have no condition. -/
theorem keeps_of_not_defined {c : ArithCall} (h : ¬ c.Defined) : c.Keeps := by
  cases c with
  | wplus n x y => exact onIntegers_of_not h
  | wminus n x y => exact onIntegers_of_not h
  | wmult n x y => exact onIntegers_of_not h
  | wand n x y => trivial
  | wor n x y => trivial
  | wnot n x =>
    cases x with
    | W x => exact absurd trivial h
    | W64 x => trivial
    | WBS b => trivial
  | wlshift n x s => exact absurd trivial h
  | wrshift n x s => exact absurd trivial h

theorem defined_iff {c : ArithCall} (hv : c.Valid) (hd : c.Defined) :
    (∃ w, c.run = some w ∧ Stands c.width c.value w) ↔ c.Keeps := by
  cases c with
  | wplus n x y => exact wplus_iff hv.1 hv.2 hd
  | wminus n x y => exact wminus_iff hv.1 hv.2 hd
  | wmult n x y => exact wmult_iff hv.1 hv.2 hd
  | wand n x y => exact iff_of_true (wand_meets hv.1 hv.2) trivial
  | wor n x y => exact iff_of_true (wor_meets hv.1 hv.2 hd) trivial
  | wnot n x => exact wnot_iff hv hd
  | wlshift n x s => exact wlshift_iff hv
  | wrshift n x s => exact wrshift_iff hv

end ArithCall

/-- Exactly the calls that meet the condition return a word that stands for the result of `Word.v`, and later comparisons
with such a word are right. -/
theorem arith_meets_iff (c : ArithCall) (hv : c.Valid) : (c.Meets ↔ c.Keeps) ∧
    ∀ w, c.run = some w → Stands c.width c.value w →
      (∀ y : CoqWord, y.Valid c.width → (weq w y = true ↔ c.value = y.bits c.width) ∧
        (w.IsNum → y.IsNum → wltDec w y = some (decide (c.value < y.bits c.width)))) ∧
      (w.IsNum → wordToNat w = some (c.value.toNat : Int)) := by
  refine ⟨?_, fun w _ hw => ⟨fun y hy => ⟨hw.weq_iff hy, hw.wltDec_eq hy⟩, hw.wordToNat_eq⟩⟩
  by_cases hd : c.Defined
  · exact (forall_prop_of_true hd).trans (ArithCall.defined_iff hv hd)
  · exact iff_of_true (fun h => absurd h hd) (ArithCall.keeps_of_not_defined hd)

/-- A sum that wraps around. -/
theorem arith_meets_iff_small : (ArithCall.wplus 16 (.W 0xffff) (.W 2)).Meets :=
  (arith_meets_iff (.wplus 16 (.W 0xffff) (.W 2)) ⟨⟨by decide, by decide⟩, ⟨by decide, by decide⟩⟩).1.2
    (.inr ⟨by decide, clear_self _ 16⟩)

/-- Shifting 128 left at width 8 gives 256, which is no word of that width. -/
theorem wlshift_not_reduced : ¬ ∀ c : ArithCall, c.Valid → c.Meets := by
  intro h
  obtain ⟨w, hw, hs⟩ := h (.wlshift 8 (.W 128) 1) ⟨by decide, by decide⟩ trivial
  rw [ArithCall.run, wlshift_W] at hw
  obtain rfl : CoqWord.W 256 = w := Option.some.inj hw
  exact absurd hs.valid.2 (by decide)

end HsWord

end Fscq
