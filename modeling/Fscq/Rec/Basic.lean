import Mathlib.Algebra.Group.Int.Defs
import Mathlib.Algebra.Group.Nat.Defs
import Mathlib.Data.List.Basic
import Mathlib.Tactic.Common

/-!
# Records packed into words

A word of `n` bits is a `BitVec n`. `combine a b` puts `a` in the low bits and `b` in the high bits, `split1` and
`split2` take them out again. A record type (`Typ`) is a word, an array or a list of named fields; `toWord` packs a
record into one word, first field lowest, and `ofWord` unpacks it. They are inverse to each other on well formed
records (`ofWord_toWord`, `toWord_ofWord`).
-/

namespace Fscq

/-! ## Words -/

section Words

variable {n m : Nat}

def combine (a : BitVec n) (b : BitVec m) : BitVec (n + m) := (b ++ a).cast (Nat.add_comm m n)

def split1 (n m : Nat) (w : BitVec (n + m)) : BitVec n := w.setWidth n

def split2 (n m : Nat) (w : BitVec (n + m)) : BitVec m := (w >>> n).setWidth m

/-- Zero-extension by `m` bits. -/
def zext (w : BitVec n) (m : Nat) : BitVec (n + m) := combine w (0 : BitVec m)

theorem toNat_combine (a : BitVec n) (b : BitVec m) : (combine a b).toNat = 2 ^ n * b.toNat + a.toNat := by
  rw [combine, BitVec.toNat_cast, BitVec.toNat_append, Nat.shiftLeft_eq, Nat.mul_comm,
    Nat.two_pow_add_eq_or_of_lt a.isLt]

@[simp] theorem split1_combine (a : BitVec n) (b : BitVec m) : split1 n m (combine a b) = a := by
  apply BitVec.eq_of_toNat_eq
  rw [split1, BitVec.toNat_setWidth, toNat_combine, Nat.mul_add_mod, Nat.mod_eq_of_lt a.isLt]

@[simp] theorem split2_combine (a : BitVec n) (b : BitVec m) : split2 n m (combine a b) = b := by
  apply BitVec.eq_of_toNat_eq
  rw [split2, BitVec.toNat_setWidth, BitVec.toNat_ushiftRight, toNat_combine, Nat.shiftRight_eq_div_pow,
    Nat.mul_add_div (Nat.two_pow_pos n), Nat.div_eq_of_lt a.isLt, Nat.add_zero, Nat.mod_eq_of_lt b.isLt]

@[simp] theorem combine_split (w : BitVec (n + m)) : combine (split1 n m w) (split2 n m w) = w := by
  apply BitVec.eq_of_toNat_eq
  have hlt : w.toNat / 2 ^ n < 2 ^ m := by
    rw [Nat.div_lt_iff_lt_mul (Nat.two_pow_pos n), ← Nat.pow_add]
    exact lt_of_lt_of_eq w.isLt (by rw [Nat.add_comm])
  rw [toNat_combine, split1, split2, BitVec.toNat_setWidth, BitVec.toNat_setWidth, BitVec.toNat_ushiftRight,
    Nat.shiftRight_eq_div_pow, Nat.mod_eq_of_lt hlt, Nat.div_add_mod]

theorem combine_inj {a a' : BitVec n} {b b' : BitVec m} (h : combine a b = combine a' b') : a = a' ∧ b = b' := by
  have h₁ := congrArg (split1 n m) h
  have h₂ := congrArg (split2 n m) h
  simp only [split1_combine, split2_combine] at h₁ h₂
  exact ⟨h₁, h₂⟩

@[simp] theorem split1_zext (w : BitVec n) : split1 n m (zext w m) = w := split1_combine _ _

theorem toNat_ofNat_of_lt {l k : Nat} (h : k < 2 ^ l) : (BitVec.ofNat l k).toNat = k := by
  rw [BitVec.toNat_ofNat, Nat.mod_eq_of_lt h]

end Words

/-! ## Record types -/

namespace Rec

inductive Typ : Type
  | WordF (l : Nat)
  | ArrayF (t : Typ) (l : Nat)
  | RecF (rt : List (String × Typ))

mutual

@[reducible] def data : Typ → Type
  | .WordF l => BitVec l
  | .ArrayF t _ => List (data t)
  | .RecF rt => recdata rt

@[reducible] def recdata : List (String × Typ) → Type
  | [] => Unit
  | (_, t) :: rt => data t × recdata rt

end

mutual

def len : Typ → Nat
  | .WordF l => l
  | .ArrayF t l => l * len t
  | .RecF rt => reclen rt

def reclen : List (String × Typ) → Nat
  | [] => 0
  | (_, t) :: rt => len t + reclen rt

end

mutual

/-- Arrays have the length their type says. -/
def WellFormed : (t : Typ) → data t → Prop
  | .WordF _, _ => True
  | .ArrayF t l, (v : List (data t)) => v.length = l ∧ ∀ x ∈ v, WellFormed t x
  | .RecF rt, r => RecWellFormed rt r

def RecWellFormed : (rt : List (String × Typ)) → recdata rt → Prop
  | [], _ => True
  | (_, t) :: rt, r => WellFormed t r.1 ∧ RecWellFormed rt r.2

end

/-! ## Packing -/

section Arrays

variable {A : Type} {n : Nat}

theorem succ_mul_len (l n : Nat) : n + l * n = (l + 1) * n := by rw [Nat.succ_mul, Nat.add_comm]

/-- The first elements are lowest; missing elements are zero. -/
def arrayToWord (f : A → BitVec n) : (l : Nat) → List A → BitVec (l * n)
  | 0, _ => 0
  | _ + 1, [] => 0
  | l + 1, v :: vs => (combine (f v) (arrayToWord f l vs)).cast (succ_mul_len l n)

def wordToArray (f : BitVec n → A) : (l : Nat) → BitVec (l * n) → List A
  | 0, _ => []
  | l + 1, w =>
    f (split1 n (l * n) (w.cast (succ_mul_len l n).symm)) ::
      wordToArray f l (split2 n (l * n) (w.cast (succ_mul_len l n).symm))

@[simp] theorem length_wordToArray (f : BitVec n → A) : ∀ (l : Nat) (w : BitVec (l * n)),
    (wordToArray f l w).length = l
  | 0, _ => rfl
  | l + 1, _ => by rw [wordToArray, List.length_cons, length_wordToArray f l]

theorem mem_wordToArray {f : BitVec n → A} : ∀ {l : Nat} {w : BitVec (l * n)} {x : A}, x ∈ wordToArray f l w →
    ∃ u, x = f u
  | l + 1, w, x, hx => by
    rcases List.mem_cons.1 hx with rfl | hx
    · exact ⟨_, rfl⟩
    · exact mem_wordToArray hx

theorem wordToArray_arrayToWord {f : A → BitVec n} {g : BitVec n → A} : ∀ {l : Nat} {v : List A}, v.length = l →
    (∀ x ∈ v, g (f x) = x) → wordToArray g l (arrayToWord f l v) = v
  | 0, [], _, _ => rfl
  | l + 1, x :: v, hl, hv => by
    have ih := wordToArray_arrayToWord (f := f) (g := g) (Nat.succ.inj hl) fun y hy =>
      hv y (List.mem_cons_of_mem _ hy)
    simp [arrayToWord, wordToArray, ih, hv x List.mem_cons_self]

theorem arrayToWord_wordToArray {f : A → BitVec n} {g : BitVec n → A} (h : ∀ w, f (g w) = w) :
    ∀ (l : Nat) (w : BitVec (l * n)), arrayToWord f l (wordToArray g l w) = w
  | 0, w => by
    have : w = 0 := BitVec.eq_of_toNat_eq (by have := w.isLt; simp at this; simp; omega)
    exact this.symm
  | l + 1, w => by
    simp [arrayToWord, wordToArray, h, arrayToWord_wordToArray h l]

/-- Appending zero elements does not change the packed word. -/
theorem arrayToWord_pad {f : A → BitVec n} {z : A} (hz : f z = 0) : ∀ (l : Nat) (v : List A) (k : Nat),
    arrayToWord f l (v ++ List.replicate k z) = arrayToWord f l v
  | 0, _, _ => rfl
  | l + 1, [], 0 => rfl
  | l + 1, [], k + 1 => by
    have ih := arrayToWord_pad hz l [] k
    rw [List.nil_append] at ih ⊢
    have hnil : arrayToWord f l [] = 0 := by cases l <;> rfl
    show (combine (f z) (arrayToWord f l (List.replicate k z))).cast _ = 0
    rw [ih, hz, hnil]
    apply BitVec.eq_of_toNat_eq
    simp [toNat_combine]
  | l + 1, x :: v, k => by
    rw [List.cons_append, arrayToWord, arrayToWord, arrayToWord_pad hz l v k]

theorem toNat_arrayToWord_singleton (f : A → BitVec n) (x : A) : (arrayToWord f 1 [x]).toNat = (f x).toNat := by
  simp [arrayToWord, toNat_combine]

end Arrays

mutual

def toWord : (t : Typ) → data t → BitVec (len t)
  | .WordF _, v => v
  | .ArrayF t l, v => arrayToWord (toWord t) l v
  | .RecF rt, r => recToWord rt r

def recToWord : (rt : List (String × Typ)) → recdata rt → BitVec (reclen rt)
  | [], _ => 0
  | (_, t) :: rt, r => combine (toWord t r.1) (recToWord rt r.2)

end

mutual

def ofWord : (t : Typ) → BitVec (len t) → data t
  | .WordF _, w => w
  | .ArrayF t l, w => wordToArray (ofWord t) l w
  | .RecF rt, w => wordToRec rt w

def wordToRec : (rt : List (String × Typ)) → BitVec (reclen rt) → recdata rt
  | [], _ => ()
  | (_, t) :: rt, w => (ofWord t (split1 (len t) (reclen rt) w), wordToRec rt (split2 (len t) (reclen rt) w))

end

/-! ## Packing and unpacking are inverse -/

mutual

theorem toWord_ofWord : ∀ (t : Typ) (w : BitVec (len t)), toWord t (ofWord t w) = w
  | .WordF _, _ => rfl
  | .ArrayF t l, w => arrayToWord_wordToArray (toWord_ofWord t) l w
  | .RecF rt, w => recToWord_wordToRec rt w

theorem recToWord_wordToRec : ∀ (rt : List (String × Typ)) (w : BitVec (reclen rt)),
    recToWord rt (wordToRec rt w) = w
  | [], w => by
    have hw : w.toNat < 2 ^ 0 := w.isLt
    exact BitVec.eq_of_toNat_eq (by simp [recToWord]; omega)
  | (_, t) :: rt, w => by
    show combine (toWord t (ofWord t _)) (recToWord rt (wordToRec rt _)) = w
    rw [toWord_ofWord t, recToWord_wordToRec rt]
    exact combine_split w

end

mutual

theorem ofWord_toWord : ∀ (t : Typ) (v : data t), WellFormed t v → ofWord t (toWord t v) = v
  | .WordF _, _, _ => rfl
  | .ArrayF t _, _, hv => wordToArray_arrayToWord hv.1 fun x hx => ofWord_toWord t x (hv.2 x hx)
  | .RecF rt, r, hr => wordToRec_recToWord rt r hr

theorem wordToRec_recToWord : ∀ (rt : List (String × Typ)) (r : recdata rt), RecWellFormed rt r →
    wordToRec rt (recToWord rt r) = r
  | [], _, _ => rfl
  | (_, t) :: rt, r, hr => by
    show (ofWord t (split1 _ _ (combine _ _)), wordToRec rt (split2 _ _ (combine _ _))) = r
    rw [split1_combine, split2_combine, ofWord_toWord t r.1 hr.1, wordToRec_recToWord rt r.2 hr.2]

end

mutual

theorem wellFormed_ofWord : ∀ (t : Typ) (w : BitVec (len t)), WellFormed t (ofWord t w)
  | .WordF _, _ => trivial
  | .ArrayF t l, w => ⟨length_wordToArray _ l w, fun x hx => by
      obtain ⟨u, rfl⟩ := mem_wordToArray hx
      exact wellFormed_ofWord t u⟩
  | .RecF rt, w => recWellFormed_wordToRec rt w

theorem recWellFormed_wordToRec : ∀ (rt : List (String × Typ)) (w : BitVec (reclen rt)),
    RecWellFormed rt (wordToRec rt w)
  | [], _ => trivial
  | (_, t) :: rt, _ => ⟨wellFormed_ofWord t _, recWellFormed_wordToRec rt _⟩

end

/-! ## The word of zeros -/

theorem split1_zero (n m : Nat) : split1 n m 0 = 0 := by simp [split1]

theorem split2_zero (n m : Nat) : split2 n m 0 = 0 := by simp [split2]

theorem wordToArray_zero {A : Type} {n : Nat} (f : BitVec n → A) : ∀ l, wordToArray f l 0 = List.replicate l (f 0)
  | 0 => rfl
  | l + 1 => by
    have hcast : ∀ {m m' : Nat} (h : m = m'), (0 : BitVec m).cast h = 0 := fun h => by subst h; rfl
    rw [wordToArray, hcast, split1_zero, split2_zero, wordToArray_zero f l, List.replicate_succ]

theorem wordToRec_zero (s : String) (t : Typ) (rt : List (String × Typ)) :
    wordToRec ((s, t) :: rt) 0 = (ofWord t 0, wordToRec rt 0) := by
  have h₁ := split1_zero (len t) (reclen rt)
  have h₂ := split2_zero (len t) (reclen rt)
  exact Prod.ext (congrArg (ofWord t) h₁) (congrArg (wordToRec rt) h₂)

end Rec

end Fscq
