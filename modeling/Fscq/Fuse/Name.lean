import Fscq.Dir.Name
import Fscq.Fuse.WordArith

/-!
# File names of the Haskell server

The server takes names as strings of Unicode characters, and `string2name'` packs their code points with `combine`, 8 bits
each. A code point of more than 8 bits runs into the next character: the names of two files can then be one word.
`names_distinct_iff` says that names are packed right if and only if all characters are below 256.
-/

namespace Fscq

namespace HsWord

namespace HsName

open SDIR (namelen)

/-- Characters of Haskell: all code points, surrogates included. -/
abbrev HsChar : Type := Fin 1114112

abbrev HsString : Type := List HsChar

def ord (c : HsChar) : Nat := c.val

/-! ## Packing -/

/-- `Word.ascii2byte`, in place of the function of `DirName.v`. -/
def ascii2byte (c : HsChar) : CoqWord := .W (ord c)

def string2name' : Nat → HsString → Option CoqWord
  | 0, _ => natToWord (0 * 8) 0
  | nbytes + 1, [] => natToWord ((nbytes + 1) * 8) 0
  | nbytes + 1, a :: s => do
    let w ← string2name' nbytes s
    combine 8 (ascii2byte a) (nbytes * 8) w

/-! ## Unpacking -/

/-- `Word.wbit`; the second width is not used. -/
def wbit (sz : Nat) : CoqWord → Option CoqWord
  | .W n => if 0 ≤ n then wrap sz (2 ^ n.toNat) else none
  | .W64 n => wrap sz (2 ^ n.toNat)
  | .WBS _ => none

def wbitset (pos : Nat) (w : CoqWord) : Option Bool := do
  let bitpos ← natToWord 8 pos
  let bit ← wbit 8 bitpos
  let masked ← wand w bit
  let zero ← natToWord 8 0
  pure (if weq masked zero then false else true)

/-- A character from its bits, lowest first. -/
def chr (bits : List Bool) : HsChar := Fin.ofNat _ (Nat.ofDigits 2 (bits.map Bool.toNat))

def byte2ascii (b : CoqWord) : Option HsChar := do
  let bits ← [0, 1, 2, 3, 4, 5, 6, 7].mapM fun pos => wbitset pos b
  pure (chr bits)

def name2padstring : Nat → CoqWord → Option HsString
  | 0, _ => some []
  | nbytes + 1, name => do
    let lo ← split1 8 (nbytes * 8) name
    let c ← byte2ascii lo
    let hi ← split2 8 name
    let s ← name2padstring nbytes hi
    pure (c :: s)

def stringUnpad : HsString → HsString
  | [] => []
  | a :: s => if a = 0 then [] else a :: stringUnpad s

def name2string (nbytes : Nat) (name : CoqWord) : Option HsString := (name2padstring nbytes name).map stringUnpad

/-! ## Valid names -/

def isNozero : HsString → Bool
  | [] => true
  | c :: s => if c = 0 then false else isNozero s

def isValidSname (s : HsString) : Bool := isNozero s && decide (s.length ≤ namelen)

/-- The word of a name fits and is decoded to the name. -/
def Packs (s : HsString) (w : CoqWord) : Prop :=
  string2name' namelen s = some w ∧ w.Valid (namelen * 8) ∧ name2string namelen w = some s

/-- Both names are packed right, and their words are not equal. -/
def Distinct (s t : HsString) : Prop := ∃ w w', Packs s w ∧ Packs t w' ∧ weq w w' = false

/-- Every character is a byte. -/
def Bytes (s : HsString) : Prop := ∀ c ∈ s, ord c < 256

/-! ## What the functions compute -/

theorem fromIntegral_eight : fromIntegral ((8 : Nat) : Int) = ((8 : Nat) : Int) := fromIntegral_of_lt (by decide)

/-- A character with more than 8 bits adds to the bits of the next one. -/
theorem combine_byte (a : HsChar) (sz2 x : Nat) : combine 8 (ascii2byte a) sz2 (.W x) = some (.W ((ord a + 256 * x : Nat) : Int)) := by
  show combineNum 8 (.W (ord a)) (.W x) = _
  rw [combineNum, shiftL, fromIntegral_eight, if_pos (Int.natCast_nonneg 8), Option.map_some]
  simp only [CoqWord.number]
  push_cast
  rw [Int.mul_comm (x : Int)]

theorem string2name'_eq : ∀ {n : Nat} {s : HsString}, s.length ≤ n →
    string2name' n s = some (.W (Nat.ofDigits 256 (s.map ord) : Nat))
  | 0, [], _ => rfl
  | n + 1, [], _ => rfl
  | n + 1, a :: s, h => by
    rw [string2name', string2name'_eq (Nat.le_of_succ_le_succ h)]
    exact combine_byte a (n * 8) _

/-- The lowest `n` bytes, as characters. -/
def padBytes : Nat → Nat → HsString
  | 0, _ => []
  | n + 1, x => Fin.ofNat _ (x % 256) :: padBytes n (x / 256)

theorem byte2ascii_eq : ∀ b : Fin 256, byte2ascii (.W (b.val : Int)) = some (Fin.ofNat _ b.val) := by
  decide +kernel

theorem split1_byte (sz2 x : Nat) : split1 8 sz2 (.W x) = some (.W ((x % 256 : Nat) : Int)) := by
  by_cases hx : x < 2 ^ 63
  · exact split1W_small 8 hx
  · exact split1W_large (Nat.le_of_not_lt hx) (fromIntegral_of_lt (n := 8) (by decide))

theorem split2_byte (x : Nat) : split2 8 (.W x) = some (.W ((x / 256 : Nat) : Int)) := by
  rw [split2, shiftR, fromIntegral_eight, if_pos (Int.natCast_nonneg 8), Option.map_some]
  rfl

theorem name2padstring_eq : ∀ n x : Nat, name2padstring n (.W x) = some (padBytes n x)
  | 0, _ => rfl
  | n + 1, x => by
    have hc := byte2ascii_eq ⟨x % 256, Nat.mod_lt x (by decide)⟩
    have ih := name2padstring_eq n (x / 256)
    rw [name2padstring, split1_byte, split2_byte]
    simp only [Option.bind_eq_bind, Option.bind_some, hc, ih]
    rfl

theorem ord_padBytes_lt : ∀ {n x : Nat}, Bytes (padBytes n x)
  | n + 1, x, c, hc => by
    rcases List.mem_cons.1 hc with rfl | hc
    · have hlt : x % 256 < 256 := Nat.mod_lt x (by decide)
      rw [ord, Fin.val_ofNat, Nat.mod_eq_of_lt (by omega)]
      exact hlt
    · exact ord_padBytes_lt c hc

theorem Bytes.stringUnpad : ∀ {s : HsString}, Bytes s → Bytes (stringUnpad s)
  | [], h => h
  | a :: s, h => by
    rw [HsName.stringUnpad]
    split
    · exact fun _ hc => absurd hc List.not_mem_nil
    · exact List.forall_mem_cons.2 ⟨h a List.mem_cons_self, (Bytes.stringUnpad (List.forall_mem_cons.1 h).2)⟩

/-- The bytes of the word of a name are the name and zeros. -/
theorem stringUnpad_padBytes : ∀ {n : Nat} {s : HsString}, s.length ≤ n → isNozero s = true → Bytes s →
    stringUnpad (padBytes n (Nat.ofDigits 256 (s.map ord))) = s
  | 0, [], _, _, _ => rfl
  | n + 1, [], _, _, _ => rfl
  | n + 1, a :: s, hlen, hz, hb => by
    have ha : ord a < 256 := hb a List.mem_cons_self
    have hne : ¬ a = 0 := fun h => by simp [isNozero, h] at hz
    have hz' : isNozero s = true := by simpa [isNozero, hne] using hz
    have hlow : (Nat.ofDigits 256 ((a :: s).map ord)) % 256 = ord a := by
      rw [List.map_cons, Nat.ofDigits_cons]
      omega
    have hhigh : (Nat.ofDigits 256 ((a :: s).map ord)) / 256 = Nat.ofDigits 256 (s.map ord) := by
      rw [List.map_cons, Nat.ofDigits_cons]
      omega
    have hchar : (Fin.ofNat _ (ord a) : HsChar) = a := Fin.ofNat_val_eq_self a
    rw [padBytes, hlow, hhigh, hchar, stringUnpad, if_neg hne,
      stringUnpad_padBytes (Nat.le_of_succ_le_succ hlen) hz' fun c hc => hb c (List.mem_cons_of_mem _ hc)]

/-! ## When names are packed right -/

/-- A valid name is packed right if and only if its characters are bytes. -/
theorem packs_iff {s : HsString} (hs : isValidSname s = true) {w : CoqWord} :
    Packs s w ↔ Bytes s ∧ w = .W (Nat.ofDigits 256 (s.map ord) : Nat) := by
  rw [isValidSname, Bool.and_eq_true, decide_eq_true_iff] at hs
  have hpad := name2padstring_eq namelen (Nat.ofDigits 256 (s.map ord))
  rw [Packs, string2name'_eq hs.2, Option.some_inj]
  constructor
  · rintro ⟨rfl, _, hdec⟩
    rw [name2string, hpad, Option.map_some, Option.some_inj] at hdec
    exact ⟨hdec ▸ Bytes.stringUnpad ord_padBytes_lt, rfl⟩
  · rintro ⟨hb, rfl⟩
    refine ⟨rfl, ⟨Int.natCast_nonneg _, ?_⟩, ?_⟩
    · have hlt := Nat.ofDigits_lt_base_pow_length (by decide : 1 < 256) (l := s.map ord) fun d hd => by
        obtain ⟨c, hc, rfl⟩ := List.mem_map.1 hd
        exact hb c hc
      rw [List.length_map] at hlt
      have hle : 256 ^ s.length ≤ 256 ^ namelen := Nat.pow_le_pow_right (by decide) hs.2
      have hpow : (256 : Nat) ^ namelen = 2 ^ (namelen * 8) := by rw [Nat.mul_comm, Nat.pow_mul]
      exact_mod_cast hpow ▸ Nat.lt_of_lt_of_le hlt hle
    · rw [name2string, hpad, Option.map_some, stringUnpad_padBytes hs.2 hs.1 hb]

/-- Two names are packed right, and kept apart, if and only if their characters are bytes. -/
theorem names_distinct_iff {s t : HsString} (hs : isValidSname s = true) (ht : isValidSname t = true) (hne : s ≠ t) :
    Distinct s t ↔ Bytes s ∧ Bytes t := by
  constructor
  · rintro ⟨w, w', hw, hw', _⟩
    exact ⟨((packs_iff hs).1 hw).1, ((packs_iff ht).1 hw').1⟩
  · rintro ⟨hbs, hbt⟩
    have hw := (packs_iff hs).2 ⟨hbs, rfl⟩
    have hw' := (packs_iff ht).2 ⟨hbt, rfl⟩
    refine ⟨_, _, hw, hw', ?_⟩
    -- one word would be decoded to both names
    refine beq_false_of_ne fun h => hne ?_
    have hdec := hw.2.2
    rw [h] at hdec
    exact Option.some_inj.1 (hdec.symm.trans hw'.2.2)

theorem names_distinct_iff_small : Distinct [97] [98] :=
  (names_distinct_iff (by decide) (by decide) (by decide)).2 ⟨by simp [Bytes, ord], by simp [Bytes, ord]⟩

/-- The names `"š"` and `"a\x01"`. -/
theorem names_collide : isValidSname [353] = true ∧ isValidSname [97, 1] = true ∧ ([353] : HsString) ≠ [97, 1] ∧
    string2name' namelen [353] = string2name' namelen [97, 1] ∧ ¬ Distinct [353] [97, 1] := by
  have heq : string2name' namelen [353] = string2name' namelen [97, 1] := by
    rw [string2name'_eq (by decide), string2name'_eq (by decide)]
    rfl
  refine ⟨by decide, by decide, by decide, heq, ?_⟩
  rintro ⟨w, w', hw, hw', hneq⟩
  obtain rfl : w = w' := Option.some_inj.1 (hw.1.symm.trans (heq.trans hw'.1))
  exact absurd (hw.2.2.symm.trans hw'.2.2) (by decide)

end HsName

end HsWord

end Fscq
